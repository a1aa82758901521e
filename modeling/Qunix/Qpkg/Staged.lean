/-
The staged file of an entry.

A check is about bytes at the time they are hashed; between that and the end of `stage`
other entries, archive members and clones write into the same directory. `Undisturbed` says
that nothing but an entry's own staging has touched its file since it was opened, and
`Foreign` what everything else can do. From there on the turns are taken one by one:
an entry that is ready before its turn is settled after it, and stays so.
-/

import Qunix.Qpkg.Sources

namespace Qunix.Qpkg.Sources

open Function Qunix.Lib Qunix.Lib.Attempt

variable {n : Nat} {Path Member : Type}

/-! ### The history of a file -/

/-- The path was touched by something other than the staging of entry `i`. -/
def Event.Disturbs (i : Fin n) (p : Path) : Event n Path → Prop
  | .opened j q => j ≠ i ∧ q = p
  | .wrote j q => j ≠ i ∧ q = p
  | .removed j q => j ≠ i ∧ q = p
  | .extracted _ _ => False
  | .changed q => q = p

/-- Entry `i` has opened its file, and nothing else has touched the path since. -/
def Undisturbed (i : Fin n) (p : Path) : List (Event n Path) → Prop
  | [] => False
  | e :: history => e = .opened i p ∨ ¬ e.Disturbs i p ∧ Undisturbed i p history

instance [DecidableEq Path] (i : Fin n) (p : Path) : DecidablePred (Event.Disturbs i p)
  | .opened _ _ => inferInstanceAs (Decidable (_ ∧ _))
  | .wrote _ _ => inferInstanceAs (Decidable (_ ∧ _))
  | .removed _ _ => inferInstanceAs (Decidable (_ ∧ _))
  | .extracted _ _ => isFalse id
  | .changed q => inferInstanceAs (Decidable (q = p))

instance decidableUndisturbed [DecidableEq Path] (i : Fin n) (p : Path) :
    DecidablePred (Undisturbed i p)
  | [] => isFalse id
  | e :: history =>
    have := decidableUndisturbed i p history
    inferInstanceAs (Decidable (e = .opened i p ∨ ¬ e.Disturbs i p ∧ Undisturbed i p history))

/-- What the others do: an archive of entry `i` is not unpacked, and its file is disturbed or
left as it was. -/
structure Foreign (i : Fin n) (p : Path) (desk desk' : Desk n Path) : Prop where
  history : ∃ new, desk'.history = new ++ desk.history ∧ ∀ bytes, .extracted i bytes ∉ new
  find : Undisturbed i p desk'.history →
    Undisturbed i p desk.history ∧ desk'.files.find p = desk.files.find p

namespace Foreign

variable {i j : Fin n} {p q : Path} {desk desk' desk'' : Desk n Path}

theorem refl (i : Fin n) (p : Path) (desk : Desk n Path) : Foreign i p desk desk where
  history := ⟨[], rfl, fun _ => List.not_mem_nil⟩
  find := fun h => ⟨h, rfl⟩

theorem trans (h : Foreign i p desk desk') (h' : Foreign i p desk' desk'') :
    Foreign i p desk desk'' where
  history := by
    obtain ⟨new, hnew, hn⟩ := h.history
    obtain ⟨new', hnew', hn'⟩ := h'.history
    refine ⟨new' ++ new, by rw [hnew', hnew, List.append_assoc], fun bytes hmem => ?_⟩
    rcases List.mem_append.mp hmem with hmem | hmem
    · exact hn' bytes hmem
    · exact hn bytes hmem
  find := by
    intro hun
    obtain ⟨hun', hf'⟩ := h'.find hun
    obtain ⟨hun, hf⟩ := h.find hun'
    exact ⟨hun, hf'.trans hf⟩

/-- One event; it is up to the files whether it may touch the path. -/
theorem of_event {e : Event n Path} {files : Files Path} (ho : e ≠ .opened i p)
    (he : ∀ bytes, e ≠ .extracted i bytes)
    (hf : ¬ e.Disturbs i p → files.find p = desk.files.find p) :
    Foreign i p desk ⟨files, e :: desk.history⟩ where
  history := ⟨[e], rfl, fun bytes hmem => he bytes (List.mem_singleton.mp hmem).symm⟩
  find := by
    rintro (rfl | ⟨hnot, hun⟩)
    · exact absurd rfl ho
    · exact ⟨hun, hf hnot⟩

theorem extract (h : j ≠ i) (bytes : List UInt8) : Foreign i p desk (desk.extract j bytes) := by
  refine of_event (by simp) (fun bytes' heq => ?_) fun _ => rfl
  cases heq
  exact h rfl

variable [DecidableEq Path]

theorem create (h : j ≠ i) : Foreign i p desk (desk.create j q).2 := by
  refine of_event ?_ (by simp) fun hnot => ?_
  · rintro ⟨⟩
    exact h rfl
  · exact Files.find_create_of_ne fun heq => hnot ⟨h, heq.symm⟩

theorem write (h : j ≠ i) (id offset : Nat) (data : List UInt8) :
    Foreign i p desk (desk.write j q id offset data) := by
  refine of_event (by simp) (by simp) fun hnot => ?_
  exact Files.find_writeAt_of_ne fun heq => hnot ⟨h, heq.symm⟩

theorem remove (h : j ≠ i) : Foreign i p desk (desk.remove j q) := by
  refine of_event (by simp) (by simp) fun hnot => ?_
  exact Files.find_remove_of_ne fun heq => hnot ⟨h, heq.symm⟩

theorem store (h : j ≠ i) (bytes : List UInt8) : Foreign i p desk (desk.store j q bytes) :=
  (create h).trans (write h ..)

theorem change (c : Change Path) : Foreign i p desk (desk.change c) := by
  obtain ⟨q, content⟩ := c
  cases content with
  | some bytes =>
    refine of_event (by simp) (by simp) fun hnot => ?_
    exact Files.find_put_of_ne (fun heq => hnot heq.symm) bytes
  | none =>
    refine of_event (by simp) (by simp) fun hnot => ?_
    exact Files.find_remove_of_ne fun heq => hnot heq.symm

theorem changes (cs : List (Change Path)) : Foreign i p desk (cs.foldl Desk.change desk) := by
  induction cs generalizing desk with
  | nil => exact refl i p desk
  | cons c cs ih => exact (change c).trans ih

end Foreign

/-! ### The file of an entry -/

section Entry

variable (good : List UInt8 → Prop) (i : Fin n) (p : Path)

/-- While undisturbed, the file is there with good bytes. -/
def Staged (desk : Desk n Path) : Prop :=
  Undisturbed i p desk.history → ∃ file, desk.files.find p = some file ∧ good file.bytes

/-- No archive of the entry has been unpacked yet. -/
def Unextracted (desk : Desk n Path) : Prop := ∀ bytes, .extracted i bytes ∉ desk.history

/-- What has been unpacked was good, if the file was undisturbed up to then. -/
def Extracted (desk : Desk n Path) : Prop := ∀ newer bytes older,
  desk.history = newer ++ .extracted i bytes :: older → Undisturbed i p older → good bytes

variable {good i p} {desk desk' : Desk n Path}

theorem Staged.foreign (h : Staged good i p desk) (hf : Foreign i p desk desk') :
    Staged good i p desk' := by
  intro hun
  obtain ⟨hun, hfi⟩ := hf.find hun
  rw [hfi]
  exact h hun

theorem Unextracted.foreign (h : Unextracted i desk) (hf : Foreign i p desk desk') :
    Unextracted i desk' := by
  intro bytes hmem
  obtain ⟨new, hnew, hn⟩ := hf.history
  rw [hnew] at hmem
  rcases List.mem_append.mp hmem with hmem | hmem
  · exact hn bytes hmem
  · exact h bytes hmem

theorem Unextracted.extracted (h : Unextracted i desk) : Extracted good i p desk := by
  intro newer bytes older hh
  exact absurd (hh ▸ by simp) (h bytes)

theorem Extracted.foreign (h : Extracted good i p desk) (hf : Foreign i p desk desk') :
    Extracted good i p desk' := by
  intro newer bytes older hh
  obtain ⟨new, hnew, hn⟩ := hf.history
  rw [hnew] at hh
  -- the event is none of the new ones, so they are at the front of the later ones
  rcases List.append_eq_append_iff.mp hh with ⟨later, hl, hold⟩ | ⟨later, hl, hold⟩
  · exact h later bytes older hold
  · cases later with
    | nil => exact h [] bytes older (by simpa using hold.symm)
    | cons e later =>
      obtain ⟨rfl, -⟩ := List.cons.inj hold
      exact absurd (by rw [hl]; simp) (hn bytes)

/-- An entry after its turn. -/
structure Settled (good : List UInt8 → Prop) (i : Fin n) (p : Path) (archive : Prop)
    (desk : Desk n Path) : Prop where
  staged : Staged good i p desk
  extracted : Extracted good i p desk
  unpacked : archive → ∃ bytes, .extracted i bytes ∈ desk.history

variable {archive : Prop}

theorem Settled.foreign (h : Settled good i p archive desk) (hf : Foreign i p desk desk') :
    Settled good i p archive desk' where
  staged := h.staged.foreign hf
  extracted := h.extracted.foreign hf
  unpacked := by
    intro ha
    obtain ⟨bytes, hmem⟩ := h.unpacked ha
    obtain ⟨new, hnew, -⟩ := hf.history
    exact ⟨bytes, hnew ▸ List.mem_append_right _ hmem⟩

theorem Staged.extract (h : Staged good i p desk) (hn : Unextracted i desk) {file : File}
    (hf : desk.files.find p = some file) :
    Settled good i p archive (desk.extract i file.bytes) where
  staged := by
    rintro (⟨⟨⟩⟩ | ⟨-, hun⟩)
    exact h hun
  extracted := by
    intro newer bytes older hh hun
    cases newer with
    | nil =>
      obtain ⟨⟨⟩, rfl⟩ := List.cons.inj hh
      obtain ⟨file', hf', hg⟩ := h hun
      obtain rfl := Option.mem_unique hf hf'
      exact hg
    | cons e newer =>
      obtain ⟨-, hold⟩ := List.cons.inj hh
      exact hn.extracted newer bytes older hold hun
  unpacked := fun _ => ⟨_, List.mem_cons_self⟩

/-- A property that the others cannot take away. -/
def Lasting (i : Fin n) (p : Path) (I : Desk n Path → Prop) : Prop :=
  ∀ desk desk', Foreign i p desk desk' → I desk → I desk'

end Entry

/-! ### In entry order -/

section Settle

variable {host : Host Path Member} {plans : Fin n → Plan} {sums : Sums n} {i j : Fin n} {p : Path}
  {I : Desk n Path → Prop} {good : List UInt8 → Prop}

/-- The staged file is one that is unpacked. -/
def IsArchive (host : Host Path Member) (p : Path) : Prop :=
  (formatOf (host.fileName p)).isSome = true

theorem readFile_meets (q : Path) : Meets I (readFile host q)
    (fun bytes desk => I desk ∧ ∃ file, desk.files.find q = some file ∧ file.bytes = bytes) I := by
  refine Meets.read fun desk hd => ?_
  dsimp only
  split
  · rintro _ rfl
    exact hd
  · rintro _ rfl
    exact hd
  · rename_i file _ hf
    rintro _ rfl
    exact ⟨hd, file, hf, rfl⟩

variable [DecidableEq Path]

theorem writeFile_meets {J : Desk n Path → Prop} (q : Path) (bytes : List UInt8)
    (h : ∀ desk, I desk → J (desk.store j q bytes)) :
    Meets I (writeFile host j q bytes) (fun _ => J) I := by
  refine Meets.read fun desk hd => ?_
  split
  · rintro _ rfl
    exact hd
  · rintro _ rfl
    exact h _ hd

section

variable (hI : Lasting i p I)

include hI

theorem run_keeps (tool : Files Path → Except Str Bool × List (Change Path))
    : Keeps I (run tool) := by
  refine Meets.read fun desk hd => ?_
  refine Meets.bind (Q := fun _ => I) (Meets.modify ?_)
    fun _ => Meets.lift (fun _ hs _ _ => hs) fun _ hs => hs
  rintro _ rfl
  exact hI _ _ (Foreign.changes _) hd

theorem unpackEntry_keeps (name : Str) (entry : Except Str Member) :
    Keeps I (unpackEntry host name entry) := by
  cases entry with
  | error e => exact Meets.fail fun _ hs => hs
  | ok member =>
    refine Meets.bind (run_keeps hI _).mapErr fun _ => ?_
    exact Meets.ite (fun _ => Meets.fail fun _ hs => hs) fun _ => Meets.pure fun _ hs => hs

theorem extractIfArchive_keeps (hj : j ≠ i) (q : Path) :
    Keeps I (extractIfArchive host j q) := by
  refine Meets.bind (readFile_meets q).mapErr fun bytes => ?_
  split
  · exact Meets.pure fun _ hs => hs.1
  · refine Meets.bind (Q := fun _ => I) (Meets.modify fun desk hs => ?_) fun _ => ?_
    · exact hI _ _ (Foreign.extract hj bytes) hs.1
    · refine Meets.bind (Q := fun _ => I) (Meets.lift (fun _ hs _ _ => hs) fun _ hs => hs)
        fun _ => ?_
      exact Meets.forM_keeps fun entry _ => unpackEntry_keeps hI _ entry

theorem runGit_keeps (command : Files Path → Except Str Bool × List (Change Path)) (failed : Str) :
    Keeps I (runGit command failed) := by
  refine Meets.bind (run_keeps hI command).mapErr fun _ => ?_
  exact Meets.ite (fun _ => Meets.fail fun _ hs => hs) fun _ => Meets.pure fun _ hs => hs

theorem settleEntry_keeps (hj : j ≠ i) :
    Keeps I (settleEntry host plans sums j) := by
  unfold settleEntry
  split
  · exact extractIfArchive_keeps hI hj _
  · refine Meets.bind (readFile_meets _).mapErr fun bytes => ?_
    refine Meets.bind (Q := fun _ => I) (Meets.lift (fun _ hs _ _ => hs.1) fun _ hs => hs.1)
      fun _ => ?_
    refine Meets.bind (writeFile_meets _ bytes fun desk hs => ?_)
      fun _ => extractIfArchive_keeps hI hj _
    exact hI _ _ (Foreign.store hj bytes) hs
  · refine Meets.bind (runGit_keeps hI _ _) fun _ => ?_
    split
    · exact Meets.pure fun _ hs => hs
    · split
      · exact Meets.fail fun _ hs => hs
      · exact runGit_keeps hI _ _

end

/-- The entry's own archive is unpacked from the bytes that were staged. -/
theorem extractIfArchive_settles :
    Ensures (fun desk => Staged good i p desk ∧ Unextracted i desk) (extractIfArchive host i p)
      fun _ => Settled good i p (IsArchive host p) := by
  refine Meets.bind (readFile_meets p).mapErr.ensures fun bytes => ?_
  split
  · rename_i hfo
    refine Meets.pure fun desk hs => ?_
    refine ⟨hs.1.1, hs.1.2.extracted, fun ha => ?_⟩
    rw [IsArchive, hfo] at ha
    cases ha
  · refine Meets.bind (Q := fun _ => Settled good i p (IsArchive host p))
      (Meets.modify fun desk hs => ?_) fun _ => ?_
    · obtain ⟨⟨hst, hn⟩, file, hfi, rfl⟩ := hs
      exact hst.extract hn hfi
    · refine Meets.bind (Q := fun _ => Settled good i p (IsArchive host p))
        (Meets.lift (fun _ hs _ _ => hs) fun _ _ => trivial) fun entries => ?_
      have hl : Lasting i p (Settled good i p (IsArchive host p)) :=
        fun _ _ hf hs => hs.foreign hf
      exact (Meets.forM_keeps fun entry _ => unpackEntry_keeps hl _ entry).ensures

end Settle

/-! ### Checks -/

section Checks

variable {host : Host Path Member} {plans : Fin n → Plan} {sums : Sums n} {i : Fin n} {p : Path}
  {desk desk' : Desk n Path} {bytes : List UInt8}

/-- The entry has a checksum. -/
def Summed (sums : Sums n) (i : Fin n) : Prop :=
  ∃ expected, sums.expected i = some expected ∧ expected ≠ "SKIP".toList

/-- The bytes hash to the entry's checksum. -/
def Fits (host : Host Path Member) (sums : Sums n) (i : Fin n) (bytes : List UInt8) : Prop :=
  ∃ expected got, sums.expected i = some expected ∧
    ((Hasher.forSums sums).update bytes).hex host = some got ∧ eqIgnoreAsciiCase expected got = true

variable {name : Str}

theorem fits_of_verifyBytes (hsu : Summed sums i)
    (h : verifyBytes host sums i name bytes = .ok ()) : Fits host sums i bytes := by
  obtain ⟨expected, he, hs⟩ := hsu
  refine ⟨expected, ?_⟩
  cases sums with
  | none => cases he
  | sha256 sums | b2 sums =>
    cases he
    simp only [verifyBytes, if_neg hs] at h
    split_ifs at h
    exact ⟨_, rfl, rfl, by assumption⟩

/-- An entry before its turn: a download has been staged. -/
structure Ready (host : Host Path Member) (plans : Fin n → Plan) (sums : Sums n) (i : Fin n)
    (p : Path) (desk : Desk n Path) : Prop where
  unextracted : Unextracted i desk
  staged : ∀ url name, plans i = .remote url name → Staged (Fits host sums i) i p desk

theorem Ready.foreign (h : Ready host plans sums i p desk) (hf : Foreign i p desk desk') :
    Ready host plans sums i p desk' where
  unextracted := h.unextracted.foreign hf
  staged := fun url name hp => (h.staged url name hp).foreign hf

variable [DecidableEq Path]

theorem staged_store {good : List UInt8 → Prop} (hg : good bytes) :
    Staged good i p (desk.store i p bytes) := by
  intro _
  have hc : (desk.create i p).2.files.find p = some ⟨(desk.create i p).1, []⟩ :=
    Files.find_create_self
  exact ⟨_, Files.find_writeAt_self hc, hg⟩

theorem Unextracted.store (h : Unextracted i desk) : Unextracted i (desk.store i p bytes) := by
  intro bytes' hmem
  simp only [Desk.store, Desk.write, Desk.create, List.mem_cons, reduceCtorEq, false_or] at hmem
  exact h bytes' hmem

theorem settleEntry_settles (hs : Summed sums i) (hn : (plans i).stagedName = some name) :
    Ensures (Ready host plans sums i (host.srcdir name)) (settleEntry host plans sums i) fun _ =>
      Settled (Fits host sums i) i (host.srcdir name) (IsArchive host (host.srcdir name)) := by
  unfold settleEntry
  split
  case h_1 url name' hp =>
    rw [hp] at hn
    cases hn
    exact extractIfArchive_settles.weaken (fun desk h => ⟨h.staged url _ hp, h.unextracted⟩)
      fun _ _ h => h
  case h_2 file name' hp =>
    rw [hp] at hn
    cases hn
    refine Meets.bind (readFile_meets _).mapErr.ensures fun bytes => ?_
    refine Meets.bind (Q := fun _ desk => Fits host sums i bytes ∧ Unextracted i desk)
      (Meets.lift (fun desk h _ hv => ?_) fun _ _ => trivial) fun _ => ?_
    · exact ⟨fits_of_verifyBytes hs hv, h.1.unextracted⟩
    · refine Meets.bind (writeFile_meets _ bytes fun desk h => ?_).ensures
        fun _ => extractIfArchive_settles
      exact ⟨staged_store h.1, h.2.store⟩
  case h_3 url dest hp =>
    rw [hp] at hn
    cases hn

theorem settle_settles (hs : Summed sums i) (hna : (plans i).stagedName = some name) :
    Ensures (Ready host plans sums i (host.srcdir name)) (settle host plans sums) fun _ =>
      Settled (Fits host sums i) i (host.srcdir name) (IsArchive host (host.srcdir name)) := by
  -- an entry is ready until its turn, and settled from then on
  have hlo := Meets.forM (E := fun _ => True) (l := List.finRange n)
    (g := settleEntry host plans sums) (J := fun done desk =>
      (i ∉ done → Ready host plans sums i (host.srcdir name) desk) ∧
      (i ∈ done →
        Settled (Fits host sums i) i (host.srcdir name)
          (IsArchive host (host.srcdir name)) desk)) ?_
  · refine hlo.weaken (fun desk h => ⟨fun _ => h, fun hmem => nomatch hmem⟩) fun _ desk h => ?_
    exact h.2 (List.mem_finRange i)
  · intro done j rest hl
    rcases eq_or_ne j i with rfl | hj
    · have hnot : j ∉ done := by
        have hn := List.nodup_finRange n
        rw [hl] at hn
        intro hmem
        exact (List.nodup_append.mp hn).2.2 j hmem j List.mem_cons_self rfl
      refine (settleEntry_settles hs hna).weaken (fun desk h => h.1 hnot) fun _ desk h => ?_
      exact ⟨fun hmem => absurd (List.mem_append_right _ List.mem_cons_self) hmem, fun _ => h⟩
    · have hmem : i ∈ done ++ [j] ↔ i ∈ done := by
        simp [Ne.symm hj]
      simp only [hmem]
      refine (settleEntry_keeps (p := host.srcdir name) ?_ hj).ensures
      intro desk desk' hf h
      exact ⟨fun hnot => (h.1 hnot).foreign hf, fun hd => (h.2 hd).foreign hf⟩

end Checks

end Qunix.Qpkg.Sources
