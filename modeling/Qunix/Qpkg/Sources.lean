/-
Staging of sources.

`stage` plans each entry of the `source=` array, downloads the remote ones concurrently,
each hashed as it lands, and then goes through all entries in order: it reads, verifies
and copies local files, clones git repositories and unpacks archives. A download is
a machine whose steps interleave with those of the others, one step for each call that
another thread could see, down to a part of a buffer written; the answers of `fetch`,
of the reader and of the file system are arbitrary. The hash functions, the archive and
git tools and the resolution of paths belong to a `Host`.

The desk keeps a history of what was done to its files, latest first.
-/

import Mathlib.Data.List.DropRight
import Mathlib.Data.Vector.Basic
import Qunix.Lib.Attempt
import Qunix.Lib.Files
import Qunix.Lib.Run

namespace Qunix.Qpkg.Sources

open Function Qunix.Lib

abbrev Str := List Char

structure Pkgbuild where
  source : List Str
  sha256sums : List Str
  b2sums : List Str

inductive Error where
  | network (msg : Str)
  | extraction (msg : Str)
  | checksumMismatch (file expected got : Str)
  | io (msg : Str)

/-! ### Texts -/

/-- `split_once`: around the first occurrence. -/
def splitOnce (pattern : Str) : Str → Option (Str × Str)
  | [] => none
  | c :: s =>
    match (c :: s).dropPrefix? pattern with
    | some rest => some ([], rest)
    | none => (splitOnce pattern s).map fun (before, after) => (c :: before, after)

def eqIgnoreAsciiCase (a b : Str) : Bool := a.map Char.toLower == b.map Char.toLower

/-- `hex::encode`. -/
def hexEncode (digest : List UInt8) : Str :=
  digest.flatMap fun b => [Nat.digitChar (b.toNat / 16), Nat.digitChar (b.toNat % 16)]

def remoteFileName (url : Str) : Str :=
  (url.takeWhile fun c => c != '?' && c != '#').rtakeWhile (· != '/')

/-! ### The host -/

inductive Format where
  | gz
  | zst
  | xz
  | plain

/-- A file put at a path, or one removed. -/
abbrev Change (Path : Type) := Path × Option (List UInt8)

/-- What the code relies on and does not define. -/
structure Host (Path Member : Type) where
  sha256 : List UInt8 → List UInt8
  blake2b : List UInt8 → List UInt8
  /-- `srcdir.join`. -/
  srcdir : Str → Path
  /-- `pkgbuild_dir.join`. -/
  pkgbuildDir : Str → Path
  fileName : Path → Str
  /-- Why the file system refuses to open a path: a directory, a permission. -/
  refusal : Files Path → Path → Option Str
  /-- The decoders and `tar::Archive::entries`. -/
  entries : Format → List UInt8 → Except Str (List (Except Str Member))
  memberPath : Member → Str
  unpackIn : Member → Files Path → Except Str Bool × List (Change Path)
  clone : Str → Path → Files Path → Except Str Bool × List (Change Path)
  checkout : Path → Str → Files Path → Except Str Bool × List (Change Path)

/-! ### Checksums -/

variable {n : Nat} {Path Member : Type}

/-- The array that is consulted; it has an element for each entry. -/
inductive Sums (n : Nat) where
  | sha256 (sums : List.Vector Str n)
  | b2 (sums : List.Vector Str n)
  | none

def Sums.expected : Sums n → Fin n → Option Str
  | .sha256 sums, i => some (sums.get i)
  | .b2 sums, i => some (sums.get i)
  | .none, _ => Option.none

/-- The array has as many elements as there are sources. -/
def Sums.checked (n : Nat) (make : List.Vector Str n → Sums n) (sums : List Str) :
    Except Error (Sums n) :=
  if h : sums.length = n then .ok (make ⟨sums, h⟩)
  else .error (.extraction ((toString n).toList ++ " sources but ".toList ++
    (toString sums.length).toList ++ " checksums".toList))

def Pkgbuild.sums (pb : Pkgbuild) : Except Error (Sums pb.source.length) :=
  if !pb.sha256sums.isEmpty then Sums.checked _ .sha256 pb.sha256sums
  else if !pb.b2sums.isEmpty then Sums.checked _ .b2 pb.b2sums
  else .ok .none

/-- A hasher, with what it has been fed so far. -/
inductive Hasher where
  | sha (fed : List UInt8)
  | b2 (fed : List UInt8)
  | none

namespace Hasher

def forSums : Sums n → Hasher
  | .sha256 _ => .sha []
  | .b2 _ => .b2 []
  | .none => .none

/-- Nothing is hashed where nothing is to be compared. -/
def forEntry (sums : Sums n) (i : Fin n) : Hasher :=
  match sums.expected i with
  | some expected => if expected ≠ "SKIP".toList then forSums sums else .none
  | Option.none => .none

def update : Hasher → List UInt8 → Hasher
  | .sha fed, buf => .sha (fed ++ buf)
  | .b2 fed, buf => .b2 (fed ++ buf)
  | .none, _ => .none

def hex (host : Host Path Member) : Hasher → Option Str
  | .sha fed => some (hexEncode (host.sha256 fed))
  | .b2 fed => some (hexEncode (host.blake2b fed))
  | .none => Option.none

end Hasher

/-- Where nothing is consulted nothing is expected, so the arm marked unreachable is not there. -/
def verifyBytes (host : Host Path Member) (sums : Sums n) (i : Fin n) (file : Str)
    (bytes : List UInt8) : Except Error Unit :=
  let verify (expected got : Str) : Except Error Unit :=
    if expected = "SKIP".toList then .ok ()
    else if eqIgnoreAsciiCase expected got then .ok ()
    else .error (.checksumMismatch file expected got)
  match sums with
  | .none => .ok ()
  | .sha256 sums => verify (sums.get i) (hexEncode (host.sha256 bytes))
  | .b2 sums => verify (sums.get i) (hexEncode (host.blake2b bytes))

/-! ### Plans -/

inductive Plan where
  | remote (url name : Str)
  | localFile (file name : Str)
  | git (url : Str) (dest : Option Str)

def planOf (entry : Str) : Plan :=
  let dest := (splitOnce "::".toList entry).map Prod.fst
  let url := ((splitOnce "::".toList entry).map Prod.snd).getD entry
  match url.dropPrefix? "git+".toList with
  | some gitUrl => .git gitUrl dest
  | none =>
    if (splitOnce "://".toList url).isSome then .remote url (dest.getD (remoteFileName url))
    else .localFile url (dest.getD url)

def Pkgbuild.plans (pb : Pkgbuild) (i : Fin pb.source.length) : Plan := planOf (pb.source.get i)

/-- The name of the file that an entry is staged to. -/
def Plan.stagedName : Plan → Option Str
  | .remote _ name => some name
  | .localFile _ name => some name
  | .git _ _ => none

def Plan.isRemote : Plan → Bool
  | .remote _ _ => true
  | _ => false

/-! ### The desk -/

/-- What was done to the files, and by which entry. -/
inductive Event (n : Nat) (Path : Type) where
  /-- The staged file is created or emptied. -/
  | opened (i : Fin n) (p : Path)
  | wrote (i : Fin n) (p : Path)
  | removed (i : Fin n) (p : Path)
  /-- The bytes an archive was unpacked from. -/
  | extracted (i : Fin n) (bytes : List UInt8)
  /-- A change made by an archive member or by git. -/
  | changed (p : Path)
  deriving DecidableEq

structure Desk (n : Nat) (Path : Type) where
  files : Files Path
  history : List (Event n Path)

namespace Desk

variable [DecidableEq Path]

def create (desk : Desk n Path) (i : Fin n) (p : Path) : Nat × Desk n Path :=
  ((desk.files.create p).1, ⟨(desk.files.create p).2, .opened i p :: desk.history⟩)

def write (desk : Desk n Path) (i : Fin n) (p : Path) (id offset : Nat) (data : List UInt8) :
    Desk n Path :=
  ⟨desk.files.writeAt p id offset data, .wrote i p :: desk.history⟩

def remove (desk : Desk n Path) (i : Fin n) (p : Path) : Desk n Path :=
  ⟨desk.files.remove p, .removed i p :: desk.history⟩

def extract (desk : Desk n Path) (i : Fin n) (bytes : List UInt8) : Desk n Path :=
  ⟨desk.files, .extracted i bytes :: desk.history⟩

def change (desk : Desk n Path) : Change Path → Desk n Path
  | (p, some bytes) => ⟨desk.files.put p bytes, .changed p :: desk.history⟩
  | (p, none) => ⟨desk.files.remove p, .changed p :: desk.history⟩

/-- `std::fs::write`. -/
def store (desk : Desk n Path) (i : Fin n) (p : Path) (bytes : List UInt8) : Desk n Path :=
  (desk.create i p).2.write i p (desk.create i p).1 0 bytes

end Desk

/-! ### Downloads -/

/-- Where a call of `stream_verified` is. -/
inductive Download where
  | fetching
  | opening
  /-- In the loop, with the part of the buffer that is not written yet. -/
  | streaming (id offset : Nat) (hasher : Hasher) (pending : List UInt8)
  | verifying (hasher : Hasher)
  | done (result : Except Error Unit)

def Download.isDone : Download → Bool
  | .done _ => true
  | _ => false

/-- What the calls in a download answer. -/
inductive Answer where
  | fetch (result : Except Error Unit)
  | create (result : Except Str Unit)
  | read (result : Except Str (List UInt8))
  /-- Some of the bytes that are left. -/
  | write (result : Except Str Nat)
  /-- Whether the file of a refused download could be removed. -/
  | verify (removed : Bool)

section Stage

variable [DecidableEq Path] (host : Host Path Member) (plans : Fin n → Plan) (sums : Sums n)

def streamVerified (i : Fin n) (url name : Str) (staged : Path) :
    Download → Answer → Desk n Path → Option (Download × Desk n Path)
  | .fetching, .fetch (.error e), desk => some (.done (.error e), desk)
  | .fetching, .fetch (.ok ()), desk => some (.opening, desk)
  | .opening, .create (.error e), desk => some (.done (.error (.io e)), desk)
  | .opening, .create (.ok ()), desk =>
    some (.streaming (desk.create i staged).1 0 (Hasher.forEntry sums i) [],
      (desk.create i staged).2)
  | .streaming _ _ _ [], .read (.error e), desk =>
    some (.done (.error (.network (url ++ ": ".toList ++ e))), desk)
  | .streaming id offset hasher [], .read (.ok buf), desk =>
    if buf = [] then some (.verifying hasher, desk)
    else if buf.length ≤ 64 * 1024 then
      some (.streaming id offset (hasher.update buf) buf, desk)
    else none
  | .streaming _ _ _ (_ :: _), .write (.error e), desk => some (.done (.error (.io e)), desk)
  | .streaming id offset hasher (b :: pending), .write (.ok count), desk =>
    if 0 < count ∧ count ≤ (b :: pending).length then
      some (.streaming id (offset + count) hasher ((b :: pending).drop count),
        desk.write i staged id offset ((b :: pending).take count))
    else none
  | .verifying hasher, .verify removed, desk =>
    match sums.expected i, hasher.hex host with
    | some expected, some got =>
      if eqIgnoreAsciiCase expected got then some (.done (.ok ()), desk)
      else some (.done (.error (.checksumMismatch name expected got)),
        if removed then desk.remove i staged else desk)
    | _, _ => some (.done (.ok ()), desk)
  | _, _, _ => none

/-- The threads of the scope, one for each remote entry. -/
structure Downloads (n : Nat) (Path : Type) where
  threads : Fin n → Download
  desk : Desk n Path

namespace Downloads

def start (files : Files Path) : Downloads n Path := ⟨fun _ => .fetching, ⟨files, []⟩⟩

def step (d : Downloads n Path) (a : Fin n × Answer) : Option (Downloads n Path) :=
  match plans a.1 with
  | .remote url name =>
    (streamVerified host sums a.1 url name (host.srcdir name) (d.threads a.1) a.2 d.desk).map
      fun (thread, desk) => ⟨update d.threads a.1 thread, desk⟩
  | _ => none

/-- Every thread has been joined. -/
def Joined (d : Downloads n Path) : Prop :=
  ∀ i, (plans i).isRemote = true → (d.threads i).isDone = true

instance (d : Downloads n Path) : Decidable (d.Joined plans) := inferInstanceAs (Decidable (∀ _, _))

/-- The failure of the first entry that failed. -/
def failure (d : Downloads n Path) : Option Error :=
  (List.finRange n).findSome? fun i =>
    match d.threads i with
    | .done (.error e) => some e
    | _ => none

end Downloads

/-! ### In entry order -/

def readFile (p : Path) : Attempt (Desk n Path) Str (List UInt8) := do
  let files := (← Attempt.get).files
  match host.refusal files p, files.find p with
  | some e, _ => .fail e
  | none, none => .fail "No such file or directory (os error 2)".toList
  | none, some file => return file.bytes

def formatOf (name : Str) : Option Format :=
  if ".tar.gz".toList.isSuffixOf name || ".tgz".toList.isSuffixOf name then some .gz
  else if ".tar.zst".toList.isSuffixOf name then some .zst
  else if ".tar.xz".toList.isSuffixOf name then some .xz
  else if ".tar".toList.isSuffixOf name then some .plain
  else none

/-- The changes a tool made before it ended, and how it ended. -/
def run (tool : Files Path → Except Str Bool × List (Change Path)) :
    Attempt (Desk n Path) Str Bool := do
  let outcome := tool (← Attempt.get).files
  .modify fun desk => outcome.2.foldl Desk.change desk
  .lift outcome.1

def unpackEntry (name : Str) : Except Str Member → Attempt (Desk n Path) Error Unit
  | .error e => .fail (.extraction e)
  | .ok member => do
    let unpacked ← (run (host.unpackIn member)).mapErr fun e =>
      .extraction (name ++ ": ".toList ++ e)
    if !unpacked then
      .fail (.extraction (name ++ ": entry ".toList ++ host.memberPath member ++
        " would escape the source directory".toList))
    else return ()

def extractIfArchive (i : Fin n) (path : Path) : Attempt (Desk n Path) Error Unit := do
  let name := host.fileName path
  let bytes ← (readFile host path).mapErr .io
  match formatOf name with
  | none => return ()
  | some format =>
    .modify fun desk => desk.extract i bytes
    let entries ← .lift ((host.entries format bytes).mapError .extraction)
    entries.forM (unpackEntry host name)

/-- `tag=`, `commit=` and `branch=` all resolve to one rev to check out. -/
def revOf (fragment : Str) : Option Str :=
  (fragment.dropPrefix? "tag=".toList).or
    ((fragment.dropPrefix? "commit=".toList).or (fragment.dropPrefix? "branch=".toList))

def runGit (command : Files Path → Except Str Bool × List (Change Path)) (failed : Str) :
    Attempt (Desk n Path) Error Unit := do
  let ok ← (run command).mapErr fun e => .extraction ("spawning git: ".toList ++ e)
  if !ok then .fail (.extraction failed)
  else return ()

def stageGit (urlWithFragment : Str) (dest : Option Str) : Attempt (Desk n Path) Error Unit := do
  let split := splitOnce "#".toList urlWithFragment
  let url := (split.map Prod.fst).getD urlWithFragment
  let base := url.rtakeWhile (· != '/')
  let checkout := host.srcdir (dest.getD ((base.dropSuffix? ".git".toList).getD base))
  runGit (host.clone url checkout) ("git clone of ".toList ++ url ++ " failed".toList)
  match split.map Prod.snd with
  | none => return ()
  | some fragment =>
    match revOf fragment with
    | none => .fail (.extraction ("unsupported git fragment #".toList ++ fragment ++
        " on ".toList ++ url))
    | some rev =>
      runGit (host.checkout checkout rev) ("git checkout of ".toList ++ rev ++ " in ".toList ++
        url ++ " failed".toList)

def writeFile (i : Fin n) (p : Path) (bytes : List UInt8) : Attempt (Desk n Path) Error Unit := do
  match host.refusal (← Attempt.get).files p with
  | some e => .fail (.io e)
  | none => .modify fun desk => desk.store i p bytes

def settleEntry (i : Fin n) : Attempt (Desk n Path) Error Unit :=
  match plans i with
  | .remote _ name => extractIfArchive host i (host.srcdir name)
  | .localFile file name => do
    let bytes ← (readFile host (host.pkgbuildDir file)).mapErr fun e =>
      .extraction ("local source ".toList ++ file ++ ": ".toList ++ e)
    .lift (verifyBytes host sums i name bytes)
    writeFile host i (host.srcdir name) bytes
    extractIfArchive host i (host.srcdir name)
  | .git url dest => stageGit host url dest

/-- What comes after the downloads. -/
def settle : Attempt (Desk n Path) Error Unit :=
  (List.finRange n).forM (settleEntry host plans sums)

end Stage

/-- How a call of `stage` can end, and the desk it leaves. -/
inductive Stages [DecidableEq Path] (host : Host Path Member) (pb : Pkgbuild) (files : Files Path) :
    Except Error Unit → Desk pb.source.length Path → Prop where
  /-- `src` could not be created. -/
  | homeless (e : Str) : Stages host pb files (.error (.io e)) ⟨files, []⟩
  | miscounted {e : Error} : pb.sums = .error e → Stages host pb files (.error e) ⟨files, []⟩
  | failed {sums : Sums pb.source.length} {answers : List (Fin pb.source.length × Answer)}
      {d : Downloads pb.source.length Path} {e : Error} : pb.sums = .ok sums →
      Run (fun d a d' => d.step host pb.plans sums a = some d') (.start files) answers d →
      d.Joined pb.plans → d.failure = some e → Stages host pb files (.error e) d.desk
  | settled {sums : Sums pb.source.length} {answers : List (Fin pb.source.length × Answer)}
      {d : Downloads pb.source.length Path} {result : Except Error Unit}
      {desk : Desk pb.source.length Path} : pb.sums = .ok sums →
      Run (fun d a d' => d.step host pb.plans sums a = some d') (.start files) answers d →
      d.Joined pb.plans → d.failure = none →
      settle host pb.plans sums d.desk = (result, desk) → Stages host pb files result desk

end Qunix.Qpkg.Sources
