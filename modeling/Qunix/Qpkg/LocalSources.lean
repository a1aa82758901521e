/-
The files beside the PKGBUILD (`build_inner` of `qpkg/src/build.rs`).

For a package of the official repositories `build_inner` downloads the local sources one by
one, and `stage` reads them later. Both take an entry apart at its first `::`. The one keeps
what stands before it and tests the whole entry, the other keeps what stands after it and
tests that, so an entry without `::` is the same to both and others need not be.
-/

import Qunix.Qpkg.Checksummed

namespace Qunix.Qpkg.Sources

open Function Qunix.Lib Qunix.Lib.Attempt

def label (entry : Str) : Str := ((splitOnce "::".toList entry).map Prod.fst).getD entry

def target (entry : Str) : Str := ((splitOnce "::".toList entry).map Prod.snd).getD entry

/-- The mark of neither a URL nor a git source. -/
def Bare (s : Str) : Prop :=
  (splitOnce "://".toList s).isNone ∧ (s.dropPrefix? "git+".toList).isNone

instance : DecidablePred Bare := fun _ => inferInstanceAs (Decidable (_ ∧ _))

/-- The name under which `build_inner` downloads an entry. -/
def downloadName (entry : Str) : Option Str := if Bare entry then some (label entry) else none

/-- The file beside the PKGBUILD that `stage` reads for an entry. -/
def Plan.readName : Plan → Option Str
  | .localFile file _ => some file
  | _ => none

section Locals

variable {Path Member : Type} [DecidableEq Path] (host : Host Path Member) {es : List Str}

/-- The loop of `build_inner`. What `fetch` answers for a file is `fetch_bytes` of its raw URL
with `refuse_html` of the body. -/
def fetchLocals (fetch : Str → Except Error (List UInt8)) (entries : List Str) :
    Attempt (Files Path) Error Unit :=
  entries.forM fun entry =>
    match downloadName entry with
    | none => return ()
    | some file => do
      let bytes ← .lift (fetch file)
      match host.refusal (← Attempt.get) (host.pkgbuildDir file) with
      | some e => .fail (.io e)
      | none => .modify fun files => files.put (host.pkgbuildDir file) bytes

/-- What is downloaded is what is read. -/
structure LocalsAgree (es : List Str) : Prop where
  names : ∀ file, (∃ e ∈ es, downloadName e = some file) ↔ ∃ e ∈ es, (planOf e).readName = some file
  /-- Nothing is fetched that is remote or a git source to `stage`. -/
  kinds : ∀ e ∈ es, (downloadName e).isSome → (planOf e).readName.isSome
  found : ∀ fetch files files', fetchLocals host fetch es files = (.ok (), files') →
    ∀ e ∈ es, ∀ file, (planOf e).readName = some file →
      (files'.find (host.pkgbuildDir file)).isSome

/-- Of the entries with `::`, what is fetched is local and read for some entry, and what is
local is fetched for some entry. -/
def Matched (es : List Str) : Prop :=
  ∀ e ∈ es, (splitOnce "::".toList e).isSome →
    (Bare e → Bare (target e) ∧ ∃ e' ∈ es, Bare (target e') ∧ target e' = label e) ∧
    (Bare (target e) → ∃ e' ∈ es, Bare e' ∧ label e' = target e)

theorem downloadName_eq_some {e file : Str} :
    downloadName e = some file ↔ Bare e ∧ label e = file := by
  simp [downloadName]

theorem readName_eq_some {e file : Str} :
    (planOf e).readName = some file ↔ Bare (target e) ∧ target e = file := by
  simp only [planOf, target, Bare]
  generalize ((splitOnce "::".toList e).map Prod.snd).getD e = url
  cases url.dropPrefix? "git+".toList with
  | some => simp [Plan.readName]
  | none => cases splitOnce "://".toList url <;> simp [Plan.readName]

theorem fetchLocals_found (fetch : Str → Except Error (List UInt8)) :
    Ensures (fun _ => True) (fetchLocals host fetch es) fun _ files =>
      ∀ e ∈ es, ∀ file, downloadName e = some file →
        (files.find (host.pkgbuildDir file)).isSome := by
  refine (Meets.forM (J := fun done files => ∀ e ∈ done, ∀ file, downloadName e = some file →
    (files.find (host.pkgbuildDir file)).isSome) fun done e rest _ => ?_).weaken (by simp)
    fun _ _ h => h
  cases hn : downloadName e with
  | none =>
    refine Meets.pure fun files h e' he' file hf => ?_
    rcases List.mem_append.mp he' with he' | he'
    · exact h e' he' file hf
    · simp [List.mem_singleton.mp he', hn] at hf
  | some new =>
    refine Meets.bind (Q := fun _ files => ∀ e ∈ done, ∀ file, downloadName e = some file →
      (files.find (host.pkgbuildDir file)).isSome) ?_ fun bytes => ?_
    · exact Meets.lift (fun _ h _ _ => h) fun _ _ => trivial
    refine Meets.read fun files h => ?_
    cases host.refusal files (host.pkgbuildDir new) with
    | some => exact Meets.fail fun _ _ => trivial
    | none =>
      rintro _ rfl e' he' file hf
      simp only [Files.put, update_apply]
      split_ifs with hp
      · rfl
      · rcases List.mem_append.mp he' with he' | he'
        · exact h e' he' file hf
        · rw [List.mem_singleton.mp he', hn] at hf
          exact absurd (Option.some.inj hf ▸ rfl) hp

/-- The two agree on a source array if and only if its entries with `::` match. -/
theorem locals_agree_iff (es : List Str) : LocalsAgree host es ↔ Matched es := by
  have hp : ∀ e, (splitOnce "::".toList e).isSome ∨ label e = e ∧ target e = e := by
    intro e
    unfold label target
    cases splitOnce "::".toList e <;> simp
  constructor
  · intro h e he _
    refine ⟨fun hb => ⟨?_, ?_⟩, fun hb => ?_⟩
    · obtain ⟨file, hf⟩ := Option.isSome_iff_exists.mp
        (h.kinds e he (by simp [downloadName, hb]))
      exact (readName_eq_some.mp hf).1
    · simpa [readName_eq_some] using
        (h.names (label e)).mp ⟨e, he, downloadName_eq_some.mpr ⟨hb, rfl⟩⟩
    · simpa [downloadName_eq_some] using
        (h.names (target e)).mpr ⟨e, he, readName_eq_some.mpr ⟨hb, rfl⟩⟩
  · intro h
    have hn : ∀ file, (∃ e ∈ es, downloadName e = some file) ↔
        ∃ e ∈ es, (planOf e).readName = some file := by
      simp only [downloadName_eq_some, readName_eq_some]
      intro file
      constructor
      · rintro ⟨e, he, hb, rfl⟩
        rcases hp e with hs | ⟨hl, ht⟩
        · exact ((h e he hs).1 hb).2
        · exact ⟨e, he, by rwa [ht], by rw [ht, hl]⟩
      · rintro ⟨e, he, hb, rfl⟩
        rcases hp e with hs | ⟨hl, ht⟩
        · exact (h e he hs).2 hb
        · exact ⟨e, he, by rwa [ht] at hb, by rw [ht, hl]⟩
    refine ⟨hn, fun e he hd => ?_, fun fetch files files' hrun e he file hf => ?_⟩
    · obtain ⟨file, hf⟩ := Option.isSome_iff_exists.mp hd
      have hb := (downloadName_eq_some.mp hf).1
      rw [Option.isSome_iff_exists]
      rcases hp e with hs | ⟨hl, ht⟩
      · exact ⟨_, readName_eq_some.mpr ⟨((h e he hs).1 hb).1, rfl⟩⟩
      · exact ⟨_, readName_eq_some.mpr ⟨by rwa [ht], rfl⟩⟩
    · obtain ⟨e', he', hd⟩ := (hn file).mpr ⟨e, he, hf⟩
      exact (fetchLocals_found host fetch).of_ok trivial hrun e' he' file hd

end Locals

/-- `b::a`: the download is kept as `b`, and `stage` looks for `a`. -/
theorem renamed_local_missed :
    ((fetchLocals bench (fun _ => .ok [1]) ["b::a".toList] ⟨fun _ => none, 0, nofun⟩).1.isOk ∧
      ((fetchLocals bench (fun _ => .ok [1]) ["b::a".toList] ⟨fun _ => none, 0, nofun⟩).2.find
        (bench.pkgbuildDir "a".toList)).isNone) ∧
    (planOf "b::a".toList).readName = some "a".toList ∧ ¬ LocalsAgree bench ["b::a".toList] := by
  have hr : (planOf "b::a".toList).readName = some "a".toList := by decide
  refine ⟨by decide +kernel, hr, fun h => ?_⟩
  obtain ⟨e, he, hd⟩ := (h.names "a".toList).mpr ⟨_, List.mem_cons_self, hr⟩
  rw [List.mem_singleton.mp he] at hd
  revert hd
  decide

end Qunix.Qpkg.Sources
