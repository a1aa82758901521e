/-
What the build finds.

The step of one download is an `Advance`, and those of the others are foreign to its file;
so, over any interleaving, what a download has fed its hasher is what its file holds and
what is still to be written, while the file is undisturbed. With the turns in entry order that
gives `checksummed`: the file of an entry with a checksum hashes to it, and so did the bytes its
archive was unpacked from. Only one of the two arrays is consulted, and a file can be
disturbed: `staged_unchecked`.
-/

import Qunix.Qpkg.Staged

namespace Qunix.Qpkg.Sources

open Function Qunix.Lib Qunix.Lib.Attempt

variable {n : Nat} {Path Member : Type}

/-! ### Downloads -/

namespace Hasher

theorem update_nil (hasher : Hasher) : hasher.update [] = hasher := by
  cases hasher with
  | sha fed => exact congrArg sha (List.append_nil fed)
  | b2 fed => exact congrArg b2 (List.append_nil fed)
  | none => rfl

theorem update_append (hasher : Hasher) (buf buf' : List UInt8) :
    hasher.update (buf ++ buf') = (hasher.update buf).update buf' := by
  cases hasher with
  | sha fed => exact congrArg sha (List.append_assoc ..).symm
  | b2 fed => exact congrArg b2 (List.append_assoc ..).symm
  | none => rfl

variable {sums : Sums n} {i : Fin n}

theorem forEntry_of_summed (h : Summed sums i) :
    forEntry sums i = forSums sums := by
  obtain ⟨expected, he, hs⟩ := h
  simp only [forEntry, he, if_pos hs]

theorem hex_isSome (host : Host Path Member) (h : Summed sums i) (bytes : List UInt8) :
    ∃ got, ((forSums sums).update bytes).hex host = some got := by
  obtain ⟨expected, he, -⟩ := h
  cases sums with
  | sha256 | b2 => exact ⟨_, rfl⟩
  | none => cases he

end Hasher

section Downloads

variable {host : Host Path Member} {plans : Fin n → Plan} {sums : Sums n} {i j : Fin n} {p q : Path}
  {desk desk' : Desk n Path} {t t' : Download}

/-- A download that is undisturbed has fed the hasher what is in the file and what is still
to be written. -/
def Tracked (host : Host Path Member) (sums : Sums n) (i : Fin n) (p : Path) (desk : Desk n Path) :
    Download → Prop
  | .fetching => True
  | .opening => True
  | .streaming id offset hasher pending => Undisturbed i p desk.history →
      ∃ written, desk.files.find p = some ⟨id, written⟩ ∧ offset = written.length ∧
        hasher = (Hasher.forEntry sums i).update (written ++ pending)
  | .verifying hasher =>
    Staged (fun bytes => hasher = (Hasher.forEntry sums i).update bytes) i p desk
  | .done (.ok _) => Staged (Fits host sums i) i p desk
  | .done (.error _) => True

theorem Tracked.foreign (h : Tracked host sums i p desk t) (hf : Foreign i p desk desk') :
    Tracked host sums i p desk' t := by
  cases t with
  | fetching | opening => trivial
  | streaming id offset hasher pending =>
    intro hun
    obtain ⟨hun, hfi⟩ := hf.find hun
    rw [hfi]
    exact h hun
  | verifying hasher =>
    change Staged (fun bytes => hasher = (Hasher.forEntry sums i).update bytes) i p desk at h
    exact h.foreign hf
  | done result =>
    cases result with
    | ok =>
      exact h.foreign hf
    | error => trivial

variable [DecidableEq Path]

/-- What a step of a download can be. -/
inductive Advance (host : Host Path Member) (sums : Sums n) (i : Fin n) (p : Path) :
    Download → Desk n Path → Download → Desk n Path → Prop where
  | failed (t : Download) (desk : Desk n Path) (e : Error) :
      Advance host sums i p t desk (.done (.error e)) desk
  | fetched (desk : Desk n Path) : Advance host sums i p .fetching desk .opening desk
  | opened (desk : Desk n Path) : Advance host sums i p .opening desk
      (.streaming (desk.create i p).1 0 (Hasher.forEntry sums i) []) (desk.create i p).2
  | read (id offset : Nat) (hasher : Hasher) (buf : List UInt8) (desk : Desk n Path) :
      Advance host sums i p (.streaming id offset hasher []) desk
        (.streaming id offset (hasher.update buf) buf) desk
  | ended (id offset : Nat) (hasher : Hasher) (desk : Desk n Path) :
      Advance host sums i p (.streaming id offset hasher []) desk (.verifying hasher) desk
  | wrote (id offset : Nat) (hasher : Hasher) {pending : List UInt8} {count : Nat}
      (desk : Desk n Path) : count ≤ pending.length →
      Advance host sums i p (.streaming id offset hasher pending) desk
        (.streaming id (offset + count) hasher (pending.drop count))
        (desk.write i p id offset (pending.take count))
  | passed {hasher : Hasher} (desk : Desk n Path) :
      (∀ expected got, sums.expected i = some expected → hasher.hex host = some got →
        eqIgnoreAsciiCase expected got = true) →
      Advance host sums i p (.verifying hasher) desk (.done (.ok ())) desk
  | removed (hasher : Hasher) (desk : Desk n Path) (e : Error) :
      Advance host sums i p (.verifying hasher) desk (.done (.error e)) (desk.remove i p)

variable {name : Str} {files : Files Path} {answers : List (Fin n × Answer)} {d : Downloads n Path}

theorem advance_of_streamVerified {url : Str} {a : Answer}
    (h : streamVerified host sums i url name p t a desk = some (t', desk')) :
    Advance host sums i p t desk t' desk' := by
  unfold streamVerified at h
  split at h
  case h_1 => cases h; exact .failed ..
  case h_2 => cases h; exact .fetched _
  case h_3 => cases h; exact .failed ..
  case h_4 => cases h; exact .opened _
  case h_5 => cases h; exact .failed ..
  case h_6 =>
    split at h
    · cases h
      exact .ended ..
    · split_ifs at h
      cases h
      exact .read ..
  case h_7 => cases h; exact .failed ..
  case h_8 =>
    split_ifs at h with hc
    cases h
    exact .wrote _ _ _ _ hc.2
  case h_9 hasher removed =>
    split at h
    · rename_i expected got he hgot
      split at h
      · rename_i heq
        cases h
        refine .passed _ fun expected' got' he' hgot' => ?_
        obtain rfl := Option.mem_unique he he'
        obtain rfl := Option.mem_unique hgot hgot'
        exact heq
      · cases h
        cases removed with
        | true => exact .removed ..
        | false => exact .failed ..
    · rename_i hn
      cases h
      exact .passed _ fun expected got he hgot => (hn expected got he hgot).elim
  case h_10 => cases h

theorem Advance.foreign (h : Advance host sums j q t desk t' desk') (hj : j ≠ i) :
    Foreign i p desk desk' := by
  cases h with
  | failed | fetched | read | ended | passed => exact Foreign.refl ..
  | opened => exact Foreign.create hj
  | wrote => exact Foreign.write hj ..
  | removed => exact Foreign.remove hj

theorem Advance.unextracted (h : Advance host sums i q t desk t' desk') (hn : Unextracted i desk) :
    Unextracted i desk' := by
  intro bytes hmem
  cases h with
  | opened | wrote | removed => exact hn bytes (List.mem_of_ne_of_mem (by simp) hmem)
  | _ => exact hn bytes hmem

theorem Tracked.advance (hs : Summed sums i) (h : Tracked host sums i p desk t)
    (ha : Advance host sums i p t desk t' desk') : Tracked host sums i p desk' t' := by
  cases ha with
  | failed | fetched | removed => trivial
  | opened =>
    intro _
    exact ⟨[], Files.find_create_self, rfl, (Hasher.update_nil _).symm⟩
  | read id offset hasher buf =>
    intro hun
    obtain ⟨written, hf, ho, hh⟩ := h hun
    refine ⟨written, hf, ho, ?_⟩
    rw [Hasher.update_append, hh, List.append_nil]
  | ended id offset hasher =>
    intro hun
    obtain ⟨written, hf, -, hh⟩ := h hun
    rw [List.append_nil] at hh
    exact ⟨_, hf, hh⟩
  | @wrote id offset hasher pending count _ hc =>
    rintro (⟨⟨⟩⟩ | ⟨-, hun⟩)
    obtain ⟨written, hf, rfl, hh⟩ := h hun
    refine ⟨written ++ pending.take count, Files.find_writeAt_self hf, ?_, ?_⟩
    · rw [List.length_append, List.length_take_of_le hc]
    · rw [hh, List.append_assoc, List.take_append_drop]
  | @passed hasher _ heq =>
    intro hun
    obtain ⟨file, hf, hh⟩ := h hun
    rw [Hasher.forEntry_of_summed hs] at hh
    obtain ⟨got, hgot⟩ := Hasher.hex_isSome host hs file.bytes
    obtain ⟨expected, he, -⟩ := hs
    refine ⟨file, hf, expected, got, he, hgot, heq expected got he ?_⟩
    rw [hh, hgot]

/-- Over any interleaving. The thread of an entry that is not remote never starts. -/
theorem Downloads.tracked (hsu : Summed sums i) (hna : (plans i).stagedName = some name)
    (hrun : Run (fun d a d' => d.step host plans sums a = some d') (.start files) answers d) :
    Unextracted i d.desk ∧ Tracked host sums i (host.srcdir name) d.desk (d.threads i) := by
  have hst : Unextracted i (Downloads.start files).desk ∧ Tracked host sums i (host.srcdir name)
      (Downloads.start files).desk ((Downloads.start files).threads i) :=
    ⟨fun _ => List.not_mem_nil, trivial⟩
  refine hrun.invariant (p := fun d => Unextracted i d.desk ∧
    Tracked host sums i (host.srcdir name) d.desk (d.threads i)) ?_ hst
  rintro d ⟨j, a⟩ d' ⟨hn, ht⟩ hs
  simp only [Downloads.step] at hs
  split at hs
  · rename_i url name' hp
    obtain ⟨⟨t', desk'⟩, hm, rfl⟩ := Option.map_eq_some_iff.mp hs
    have ha := advance_of_streamVerified hm
    rcases eq_or_ne j i with rfl | hj
    · rw [hp] at hna
      cases hna
      dsimp only
      rw [update_self]
      exact ⟨ha.unextracted hn, ht.advance hsu ha⟩
    · have hf : Foreign i (host.srcdir name) d.desk desk' := ha.foreign hj
      dsimp only
      rw [update_of_ne (Ne.symm hj)]
      exact ⟨hn.foreign hf, ht.foreign hf⟩
  · cases hs

theorem Downloads.ready (hs : Summed sums i) (hna : (plans i).stagedName = some name)
    (hrun : Run (fun d a d' => d.step host plans sums a = some d') (.start files) answers d)
    (hj : d.Joined plans) (hf : d.failure = none) :
    Ready host plans sums i (host.srcdir name) d.desk := by
  obtain ⟨hn, htr⟩ := Downloads.tracked hs hna hrun
  refine ⟨hn, fun url name' hp => ?_⟩
  have hd := hj i (by rw [hp]; rfl)
  have hnot := List.findSome?_eq_none_iff.mp hf i (List.mem_finRange i)
  cases ht : d.threads i with
  | done result =>
    rw [ht] at htr hnot
    cases result with
    | ok => exact htr
    | error e => cases hnot
  | _ =>
    rw [ht] at hd
    cases hd

end Downloads

/-! ### The build's files -/

/-- The checksums that are consulted, and the hash function they are of. -/
def Pkgbuild.consulted (host : Host Path Member) (pb : Pkgbuild) :
    List Str × (List UInt8 → List UInt8) :=
  if pb.sha256sums = [] then (pb.b2sums, host.blake2b) else (pb.sha256sums, host.sha256)

/-- The hash of the bytes, written in hexadecimal, is the checksum, in either case. -/
def HashesTo (hash : List UInt8 → List UInt8) (bytes : List UInt8) (sum : Str) : Prop :=
  eqIgnoreAsciiCase sum (hexEncode (hash bytes)) = true

variable {host : Host Path Member} {sum : Str} {pb : Pkgbuild}

/-- An array that passed the count, with the hash function of its kind. -/
theorem Sums.checked_spec {make : List.Vector Str n → Sums n} {hash : List UInt8 → List UInt8}
    (he : ∀ v i, (make v).expected i = some (v.get i))
    (hh : ∀ v bytes, ((Hasher.forSums (make v)).update bytes).hex host =
      some (hexEncode (hash bytes)))
    {array : List Str} {sums : Sums n} (hs : Sums.checked n make array = .ok sums) {i : Fin n}
    (hsum : array[i.val]? = some sum) :
    sums.expected i = some sum ∧ ∀ bytes, Fits host sums i bytes → HashesTo hash bytes sum := by
  unfold Sums.checked at hs
  split_ifs at hs with hl
  cases hs
  have hget : (make ⟨array, hl⟩).expected i = some sum := by
    refine (he ⟨array, hl⟩ i).trans ?_
    rw [← hsum]
    exact (List.getElem?_eq_getElem (hl.symm ▸ i.isLt)).symm
  refine ⟨hget, ?_⟩
  rintro bytes ⟨expected, got, he', hgot, heq⟩
  obtain rfl := Option.mem_unique hget he'
  obtain rfl := Option.some.inj ((hh _ bytes).symm.trans hgot)
  exact heq

theorem consulted_spec {sums : Sums pb.source.length} (hs : pb.sums = .ok sums)
    {i : Fin pb.source.length} (hsum : (pb.consulted host).1[i.val]? = some sum) :
    sums.expected i = some sum ∧
      ∀ bytes, Fits host sums i bytes → HashesTo (pb.consulted host).2 bytes sum := by
  unfold Pkgbuild.sums at hs
  unfold Pkgbuild.consulted at hsum ⊢
  split at hs
  · rename_i hsha
    have hne : pb.sha256sums ≠ [] := by simpa using hsha
    rw [if_neg hne] at hsum ⊢
    exact Sums.checked_spec (fun _ _ => rfl) (fun _ _ => rfl) hs hsum
  · rename_i hsha
    have hnil : pb.sha256sums = [] := by simpa using hsha
    rw [if_pos hnil] at hsum ⊢
    split at hs
    · exact Sums.checked_spec (fun _ _ => rfl) (fun _ _ => rfl) hs hsum
    · rename_i hb2
      have hnil : pb.b2sums = [] := by simpa using hb2
      rw [hnil] at hsum
      cases hsum

/-- When `stage` succeeds, the file of an entry with a checksum is there and hashes to it,
if nothing else has touched it since it was opened; and an archive was unpacked from bytes
that hash to it, if nothing else had touched it by then. -/
theorem checksummed [DecidableEq Path] {host : Host Path Member} {pb : Pkgbuild}
    {files : Files Path} {desk : Desk pb.source.length Path}
    (hstages : Stages host pb files (.ok ()) desk)
    {i : Fin pb.source.length} {name sum : Str} (hname : (pb.plans i).stagedName = some name)
    (hsum : (pb.consulted host).1[i.val]? = some sum) (hskip : sum ≠ "SKIP".toList) :
    (Undisturbed i (host.srcdir name) desk.history → ∃ file,
        desk.files.find (host.srcdir name) = some file ∧
          HashesTo (pb.consulted host).2 file.bytes sum) ∧
      (IsArchive host (host.srcdir name) → ∃ bytes, .extracted i bytes ∈ desk.history) ∧
      ∀ newer bytes older, desk.history = newer ++ .extracted i bytes :: older →
        Undisturbed i (host.srcdir name) older → HashesTo (pb.consulted host).2 bytes sum := by
  cases hstages with
  | @settled sums answers d _ _ hsums hrun hjoined hfailure hsettle =>
    obtain ⟨hexpected, hfits⟩ := consulted_spec hsums hsum
    have hsummed : Summed sums i := ⟨sum, hexpected, hskip⟩
    have hready := Downloads.ready hsummed hname hrun hjoined hfailure
    have hsettled := (settle_settles hsummed hname).of_ok hready hsettle
    refine ⟨fun hun => ?_, hsettled.unpacked, fun newer bytes older hhistory hun => ?_⟩
    · obtain ⟨file, hfind, hgood⟩ := hsettled.staged hun
      exact ⟨file, hfind, hfits _ hgood⟩
    · exact hfits _ (hsettled.extracted newer bytes older hhistory hun)

/-! ### Runs -/

instance (hash : List UInt8 → List UInt8) (bytes : List UInt8) (sum : Str) :
    Decidable (HashesTo hash bytes sum) :=
  inferInstanceAs (Decidable (_ = _))

/-- A call of `stage` with the answers given, to a successful end. -/
def stageWith [DecidableEq Path] (host : Host Path Member) (pb : Pkgbuild) (files : Files Path)
    (answers : List (Fin pb.source.length × Answer)) : Option (Desk pb.source.length Path) := do
  let sums ← pb.sums.toOption
  let d ← exec (Downloads.step host pb.plans sums) (.start files) answers
  if d.Joined pb.plans ∧ d.failure.isNone = true then
    match settle host pb.plans sums d.desk with
    | (.ok _, desk) => some desk
    | (.error _, _) => none
  else none

theorem stages_of_stageWith [DecidableEq Path] {files : Files Path}
    {answers : List (Fin pb.source.length × Answer)} {desk : Desk pb.source.length Path}
    (h : stageWith host pb files answers = some desk) :
    Stages host pb files (.ok ()) desk := by
  obtain ⟨sums, hsu, h⟩ := Option.bind_eq_some_iff.mp h
  obtain ⟨d, hex, h⟩ := Option.bind_eq_some_iff.mp h
  split_ifs at h with he
  split at h
  · rename_i hs
    cases h
    exact .settled (ok_of_toOption hsu) (run_of_exec hex) he.1
      (Option.isNone_iff_eq_none.mp he.2) hs
  · cases h

/-- Archives have one member, and files hash to themselves. -/
def bench : Host Str (Str × List UInt8) where
  sha256 := id
  blake2b := List.reverse
  srcdir := fun name => "src/".toList ++ name
  pkgbuildDir := fun file => "pkg/".toList ++ file
  fileName := fun path => path.rtakeWhile (· != '/')
  refusal := fun _ _ => none
  entries := fun _ bytes =>
    let path := if bytes = [2] then "src/a" else if bytes = [3] then "src/t.tar" else "src/b"
    .ok [.ok (path.toList, [9])]
  memberPath := Prod.fst
  unpackIn := fun member _ => (.ok true, [(member.1, some member.2)])
  clone := fun _ _ _ => (.ok true, [])
  checkout := fun _ _ _ => (.ok true, [])

/-- Three local sources. -/
def shelf : Files Str :=
  let files : Files Str := ⟨fun _ => none, 0, fun _ _ h => nomatch h⟩
  ((files.put "pkg/a".toList [1, 0]).put "pkg/t.tar".toList [2]).put "pkg/u.tar".toList [3]

/-- A whole download: the body in one piece. -/
def whole {n : Nat} (i : Fin n) (body : List UInt8) : List (Fin n × Answer) :=
  [(i, .fetch (.ok ())), (i, .create (.ok ())), (i, .read (.ok body)),
    (i, .write (.ok body.length)),
    (i, .read (.ok [])), (i, .verify true)]

/-- An archive in two pieces, and a local file that is staged after it. -/
theorem checksummed_archive :
    ∃ desk, Stages bench ⟨["t.tar::h://x".toList, "a".toList],
        ["0102".toList, "SKIP".toList], []⟩ shelf (.ok ()) desk ∧
      (∃ file, desk.files.find "src/t.tar".toList = some file ∧
        HashesTo id file.bytes "0102".toList) ∧
      ∃ bytes, .extracted 0 bytes ∈ desk.history := by
  have hrun : (stageWith bench ⟨["t.tar::h://x".toList, "a".toList],
      ["0102".toList, "SKIP".toList], []⟩ shelf
      [(0, .fetch (.ok ())), (0, .create (.ok ())), (0, .read (.ok [1])), (0, .write (.ok 1)),
        (0, .read (.ok [2])), (0, .write (.ok 1)), (0, .read (.ok [])), (0, .verify true)]).any
      (fun desk => Undisturbed 0 "src/t.tar".toList desk.history) = true := by decide +kernel
  obtain ⟨desk, hdesk, hun⟩ := (Option.any_eq_true _ _).mp hrun
  have hstages := stages_of_stageWith hdesk
  have hname : (Pkgbuild.plans ⟨["t.tar::h://x".toList, "a".toList],
      ["0102".toList, "SKIP".toList], []⟩ 0).stagedName = some "t.tar".toList := by decide +kernel
  have hchecked := checksummed hstages hname rfl (by decide)
  exact ⟨desk, hstages, hchecked.1 (of_decide_eq_true hun),
    hchecked.2.1 (by unfold IsArchive; decide +kernel)⟩

/-- With both arrays only the first is consulted; an entry of the same name and an archive
member take the place of a file that was checked, and of an archive before it is unpacked. -/
theorem staged_unchecked :
    (∃ desk, Stages bench ⟨["a".toList], ["0100".toList], ["ff".toList]⟩ shelf (.ok ()) desk ∧
      ∃ file, desk.files.find "src/a".toList = some file ∧
        ¬ HashesTo bench.blake2b file.bytes "ff".toList) ∧
    (∃ desk, Stages bench ⟨["a::h://x".toList, "a::h://y".toList], ["01".toList, "02".toList], []⟩
        shelf (.ok ()) desk ∧
      ∃ file, desk.files.find "src/a".toList = some file ∧
        ¬ HashesTo bench.sha256 file.bytes "01".toList) ∧
    (∃ desk, Stages bench ⟨["a".toList, "t.tar".toList], ["0100".toList, "02".toList], []⟩
        shelf (.ok ()) desk ∧
      ∃ file, desk.files.find "src/a".toList = some file ∧
        ¬ HashesTo bench.sha256 file.bytes "0100".toList) ∧
    ∃ desk, Stages bench ⟨["u.tar".toList, "t.tar::h://x".toList], ["03".toList, "0102".toList], []⟩
        shelf (.ok ()) desk ∧
      ∃ bytes, .extracted 1 bytes ∈ desk.history ∧
        ¬ HashesTo bench.sha256 bytes "0102".toList := by
  have hfound : ∀ {pb : Pkgbuild} (answers : List (Fin pb.source.length × Answer))
      (hash : List UInt8 → List UInt8) (sum : Str),
      ((stageWith bench pb shelf answers).any fun desk =>
        (desk.files.find "src/a".toList).any fun file => ¬ HashesTo hash file.bytes sum) = true →
      ∃ desk, Stages bench pb shelf (.ok ()) desk ∧
        ∃ file, desk.files.find "src/a".toList = some file ∧ ¬ HashesTo hash file.bytes sum := by
    intro pb answers hash sum h
    obtain ⟨desk, hdesk, hfile⟩ := (Option.any_eq_true _ _).mp h
    obtain ⟨file, hfile, hsum⟩ := (Option.any_eq_true _ _).mp hfile
    exact ⟨desk, stages_of_stageWith hdesk, file, hfile, of_decide_eq_true hsum⟩
  refine ⟨hfound [] _ _ ?_, hfound (whole 0 [1] ++ whole 1 [2]) _ _ ?_, hfound [] _ _ ?_, ?_⟩
  · decide +kernel
  · decide +kernel
  · decide +kernel
  · have hrun : (stageWith bench ⟨["u.tar".toList, "t.tar::h://x".toList],
        ["03".toList, "0102".toList], []⟩ shelf (whole 1 [1, 2])).any
        (fun desk => .extracted 1 [9] ∈ desk.history) = true := by decide +kernel
    obtain ⟨desk, hdesk, hmem⟩ := (Option.any_eq_true _ _).mp hrun
    exact ⟨desk, stages_of_stageWith hdesk, [9], of_decide_eq_true hmem, by decide +kernel⟩

end Qunix.Qpkg.Sources
