import Gtexswifi.SystemOptimizer.DryRun

/-! What the first ten passes select, told from the tree that they start on. -/
namespace SystemOptimizer

open FileTree

/-- A command writes at most the file that a path leads to. -/
def InPlace (t : Volume) (path : Text) (e : Effect) : Prop :=
  ∃ l old data, t.resolve path = some l ∧ t.node l = some (.file old) ∧ e = .write l data

/-- What the manuals say the commands may do. Only upper bounds: a command
may also fail, or not be there. -/
structure Documented (shell : Command → Volume → Bool × List Effect) : Prop where
  remount : ∀ command t, command.IsRemount → (shell command t).2 = []
  whichPngcrush : ∀ t, (shell .whichPngcrush t).2 = []
  /-- `gzip` replaces the file by its compressed form. -/
  gzip : ∀ t path, ∀ e ∈ (shell (.gzip path) t).2,
    (∃ l data, t.locate (path ++ ".gz".toList) = some l ∧ t.node l ≠ some .dir ∧
      e = .write l data) ∨
    ∃ l, t.locate path = some l ∧ t.node l ≠ none ∧ e = .remove l
  convert : ∀ t path quality, ∀ e ∈ (shell (.convert path quality) t).2, InPlace t path e
  strip : ∀ t path, ∀ e ∈ (shell (.strip path) t).2, InPlace t path e
  zipDelete : ∀ t path, ∀ e ∈ (shell (.zipDelete path) t).2, InPlace t path e
  pngcrush : ∀ t path output, ∀ e ∈ (shell (.pngcrush path output) t).2,
    ∃ l data, t.resolve output = some l ∧ t.node l ≠ some .dir ∧
      (∀ target, t.node l ≠ some (.link target)) ∧ e = .write l data
  /-- `mv` onto what is no directory renames. -/
  mv : ∀ t source path, t.stat path ≠ some .dir → ∀ e ∈ (shell (.mv source path) t).2,
    (∃ l data, t.locate path = some l ∧ e = .write l data) ∨
    ∃ l, t.locate source = some l ∧ t.node l ≠ none ∧ e = .remove l
  /-- `unzip` makes the last directory on the way to where it unpacks, and
  no other. -/
  unzip : ∀ (t : Volume) path dir, t.Grows (shell (.unzip path dir) t).2
  unzip_nowhere : ∀ t path dir, t.locate dir = none → shell (.unzip path dir) t = (false, [])
  findConvert : ∀ (t : Volume) dir, t.Grows (shell (.findConvert dir) t).2
  zipUpdate : ∀ (t : Volume) dir path, t.Grows (shell (.zipUpdate dir path) t).2
  rmRf : ∀ t dir, ∀ e ∈ (shell (.rmRf dir) t).2,
    ∃ top l, t.locate dir = some top ∧ top <+: l ∧ e = .remove l

/-- The names that a scan does not pass over. -/
def Visible (name : Text) : Prop := properName name = true ∧ hidden name = false

/-- The directories that a scan opens, links to directories followed. -/
inductive Opened (t : Volume) (dir : Text) : Text → Prop where
  | root : t.stat dir = some .dir → Opened t dir dir
  | sub {parent name : Text} : Opened t dir parent → Visible name →
      t.stat (entryPath parent name) = some .dir → Opened t dir (entryPath parent name)

/-- The paths that a scan looks at. -/
def Listed (t : Volume) (dir path : Text) : Prop :=
  ∃ parent name, Opened t dir parent ∧ Visible name ∧ path = entryPath parent name

/-- A scan of some directories, with what is chosen of it and where acting
on a path may write. -/
structure Writer where
  dirs : List Text
  choose : FileInfo → Bool
  output : Volume → Text → Location → Prop

def packedAt (t : Volume) (path : Text) (l : Location) : Prop :=
  t.locate (path ++ ".gz".toList) = some l

/-- An image is crushed to a temporary file that is then moved, or converted
where it is. -/
def crushedAt (t : Volume) (path : Text) (l : Location) : Prop :=
  t.Leads (temporary path) l ∨ t.locate path = some l ∨ t.Leads path l

def writers : List Writer :=
  [{ dirs := apkDirs, choose := isApk, output := packedAt },
    { dirs := imageDirs, choose := isPNG, output := crushedAt },
    { dirs := binDirs, choose := isBinary, output := Volume.Leads },
    { dirs := [mediaPath], choose := isLargeImage, output := Volume.Leads },
    { dirs := [frameworkPath], choose := isJar,
      output := fun t path l => t.Leads path l ∨ packedAt t path l }]

/-- The locations of the files that the passes write. What one pass writes a
later one may find again. -/
inductive Written (env : Env) (t : Volume) : Location → Prop where
  | found {writer : Writer} {dir path : Text} {data : FileData} {l : Location} :
      writer ∈ writers → dir ∈ writer.dirs → Listed t dir path →
      t.stat path = some (.file data) → writer.choose (fileInfo env path data) = true →
      writer.output t path l → Written env t l
  | again {writer : Writer} {dir path : Text} {data : FileData} {l middle : Location} :
      writer ∈ writers → dir ∈ writer.dirs → Listed t dir path →
      Written env t middle → t.Leads path middle →
      writer.choose (fileInfo env path data) = true →
      writer.output t path l → Written env t l

/-- A path that gives a file, with what a pass may then see of it. -/
def Gives (env : Env) (t : Volume) (path : Text) (data : FileData) : Prop :=
  t.stat path = some (.file data) ∨ ∃ l, Written env t l ∧ t.Leads path l

def Picked (env : Env) (t : Volume) (dir : Text) (choose : FileInfo → Bool) (path : Text) : Prop :=
  Listed t dir path ∧ ∃ data, Gives env t path data ∧ choose (fileInfo env path data) = true

/-- What a pass makes of a file that it picks is written in the sense of the
footprint. -/
theorem Picked.written {env : Env} {t : Volume} {writer : Writer} {dir path : Text} {l : Location}
    (hWriter : writer ∈ writers) (hDir : dir ∈ writer.dirs)
    (hPicked : Picked env t dir writer.choose path) (hOutput : writer.output t path l) :
    Written env t l := by
  obtain ⟨hListed, data, hGives, hChosen⟩ := hPicked
  cases hGives with
  | inl hStat => exact .found hWriter hDir hListed hStat hChosen hOutput
  | inr hWritten =>
      obtain ⟨middle, hMiddle, hLeads⟩ := hWritten
      exact .again hWriter hDir hListed hMiddle hLeads hChosen hOutput

/-- A path that may give something when a pass looks at it. -/
def Found (env : Env) (t : Volume) (path : Text) : Prop :=
  t.stat path ≠ none ∨ ∃ l, Written env t l ∧ t.Leads path l

/-- A scan of some directories, with what is chosen of it and the path that
goes with a choice. -/
structure Remover where
  dirs : List Text
  choose : FileInfo → Bool
  victim : Text → Text

def removers (env : Env) : List Remover :=
  [{ dirs := apkDirs, choose := isApk, victim := id },
    { dirs := resourceDirs, choose := isForeignResource, victim := id },
    { dirs := imageDirs, choose := isPNG, victim := temporary },
    { dirs := [fontPath], choose := isSpareFont, victim := id },
    { dirs := audioDirs, choose := isLargeAudio, victim := id },
    { dirs := [frameworkPath], choose := isJar, victim := id },
    { dirs := tempDirs, choose := isStale env, victim := id },
    { dirs := localeDirs, choose := isUnusedLocale, victim := id }]

/-- The directories that go with all that is in them. -/
def doomedDirs : List Text :=
  (inSetOrder removableApps).flatMap (fun app => [entryPath appPath app, entryPath privAppPath app])
    ++ archDirs

/-- What removing a path may remove. -/
def Erased (t : Volume) (path : Text) (l : Location) : Prop :=
  t.locate path = some l ∨ ∃ below, Listed t path below ∧ t.locate below = some l

/-- The locations that the passes remove something from. -/
inductive Removed (env : Env) (t : Volume) : Location → Prop where
  | chosen {remover : Remover} {dir path : Text} {l : Location} :
      remover ∈ removers env → dir ∈ remover.dirs → Picked env t dir remover.choose path →
      t.locate (remover.victim path) = some l →
      (t.node l ≠ none ∨ Written env t l) → Removed env t l
  | doomed {dir : Text} {l : Location} :
      dir ∈ doomedDirs → t.stat dir = some .dir → Erased t dir l →
      (t.node l ≠ none ∨ Written env t l) → Removed env t l
  | lib {lib : Text} {l : Location} :
      lib ∈ libsToRemove → Found env t (entryPath libPath lib) →
      Erased t (entryPath libPath lib) l →
      (t.node l ≠ none ∨ Written env t l) → Removed env t l

end SystemOptimizer
