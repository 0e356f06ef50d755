import Gtexswifi.SystemOptimizer.Pruning

/-! Locale pruning: when the codes that `removeUnusedLocales` looks for
anywhere in a path decide as the locale of the first name below the
directory does. -/
namespace SystemOptimizer

open FileTree

/-- A name without its extension, which starts at the last dot. -/
def stem (name : Text) : Text :=
  match name.reverse.dropWhile (· ≠ '.') with
  | [] => name
  | _ :: rest => rest.reverse

def isLanguage (code : Text) : Bool :=
  (code.length = 2 || code.length = 3) && code.all Char.isLower

def isRegion (code : Text) : Bool :=
  (code.length = 2 && code.all Char.isUpper) || (code.length = 3 && code.all Char.isDigit)

def languageOf (locale : Text) : Text := locale.takeWhile (· ≠ '_')

/-- A language, or a language and a region. -/
def isLocale (text : Text) : Bool :=
  isLanguage (languageOf text) &&
    match text.drop (languageOf text).length with
    | [] => true
    | _ :: region => isRegion region

/-- A locale that the pass does not mean to keep. -/
def isUnwantedLocale (text : Text) : Bool :=
  isLocale text && !(keepLocales.map String.toList).contains text

/-- The pass removes a file that is not critical exactly where the first
name below the directory, without extension, is an unwanted locale. -/
def DecidesByLocale (env : Env) (t : Volume) : Prop :=
  ∀ dir ∈ localeDirs, ∀ first rest l, Visit t dir (first :: rest) l →
    t.locate (pathFrom dir (first :: rest)) = some l →
    isSystemCritical (pathFrom dir (first :: rest)) = false →
    ((removeUnusedLocales env (.start t)).2.tree.node l = none ↔
      isUnwantedLocale (stem first) = true)

def localePath : Text := "/system/usr/share/locale".toList

/-- The file is found by a path that has none of the codes to keep anywhere
in it. -/
def CodeFree (t : Volume) (l : Location) : Prop :=
  ∃ names, Visit t localePath names l ∧ t.locate (pathFrom localePath names) = some l ∧
    isSystemCritical (pathFrom localePath names) = false ∧
    ∀ code ∈ keepLocales, contains code (pathFrom localePath names) = false

/-- The files without a code to keep are those of unwanted locales. -/
def CodesDecide (t : Volume) : Prop :=
  ∀ dir ∈ localeDirs, ∀ first rest l, Visit t dir (first :: rest) l →
    t.locate (pathFrom dir (first :: rest)) = some l →
    isSystemCritical (pathFrom dir (first :: rest)) = false →
    (CodeFree t l ↔ isUnwantedLocale (stem first) = true)

section Decision

variable {env : Env} {t : Volume} {dir path : Text} {l : Location}

/-- A text is found exactly where it stands somewhere inside. -/
theorem contains_iff {needle : String} {text : Text} :
    contains needle text = true ↔ needle.toList <:+: text := by
  rw [contains]
  induction text with
  | nil =>
      rw [find, List.infix_nil]
      split
      · next hEmpty => exact ⟨fun _ => hEmpty, fun _ => rfl⟩
      · next hSome =>
        rw [Option.isSome_none]
        exact ⟨fun h => absurd h Bool.false_ne_true, fun hEmpty => absurd hEmpty hSome⟩
  | cons c text ih =>
      rw [find, List.infix_cons_iff, ← ih, ← List.isPrefixOf_iff_prefix]
      split
      · next hHead => exact ⟨fun _ => .inl hHead, fun _ => rfl⟩
      · next hHead => rw [Option.isSome_map, or_iff_right hHead]

theorem pathFrom_prefix (dir : Text) (names : List Text) :
    ∃ tail, pathFrom dir names = dir ++ tail := by
  induction names generalizing dir with
  | nil => exact ⟨[], (List.append_nil dir).symm⟩
  | cons name names ih =>
      obtain ⟨tail, hTail⟩ := ih (entryPath dir name)
      refine ⟨'/' :: name ++ tail, ?_⟩
      rw [pathFrom_cons, hTail, entryPath, List.append_assoc]

/-- A code in the name of the directory keeps all that is below. -/
theorem isUnusedLocale_of_code {code : String} (hCode : code ∈ keepLocales)
    (hDir : contains code dir = true) (names : List Text) (data : FileData) :
    isUnusedLocale (fileInfo env (pathFrom dir names) data) = false := by
  obtain ⟨tail, hTail⟩ := pathFrom_prefix dir names
  have hPath : contains code (pathFrom dir names) = true := by
    rw [hTail, contains_iff]
    exact (contains_iff.mp hDir).trans (List.prefix_append dir tail).isInfix
  have hAny : keepLocales.any (contains · (pathFrom dir names)) = true :=
    List.any_eq_true.mpr ⟨code, hCode, hPath⟩
  rw [isUnusedLocale, fileInfo, hAny]
  rfl

/-- The names of two of the three directories have a code to keep in them. -/
theorem chosen_below_localePath {names : List Text} {data : FileData} (hDir : dir ∈ localeDirs)
    (h : isUnusedLocale (fileInfo env (pathFrom dir names) data) = true) : dir = localePath := by
  have hKept : contains "es" dir = true → dir = localePath := by
    intro hCode
    rw [isUnusedLocale_of_code (by decide) hCode] at h
    cases h
  simp only [localeDirs, List.mem_cons, List.not_mem_nil, or_false] at hDir
  rcases hDir with rfl | rfl | rfl
  · exact hKept (by decide)
  · exact hKept (by decide)
  · rfl

theorem localePath_mem : localePath ∈ localeDirs :=
  List.mem_cons_of_mem _ (List.mem_cons_of_mem _ List.mem_cons_self)

/-- A file is chosen if it is not critical and none of the codes to keep
occurs anywhere in its path. -/
theorem isUnusedLocale_iff {file : FileInfo} : isUnusedLocale file = true ↔
    isSystemCritical file.path = false ∧ ∀ code ∈ keepLocales, contains code file.path = false := by
  simp only [isUnusedLocale, Bool.and_eq_true, Bool.not_eq_true', List.any_eq_false,
    Bool.not_eq_true, and_comm]

/-- A file is chosen by one of its paths exactly if one of them is free of
the codes. -/
theorem chosen_iff_codeFree (hFile : RegularFile t l) :
    (∃ path, Chosen env t localeDirs isUnusedLocale path ∧ t.locate path = some l) ↔
      CodeFree t l := by
  constructor
  · rintro ⟨path, ⟨dir, hDir, names, l', data, hVisit, hNode, rfl, hChoose⟩, hLocate⟩
    obtain rfl := chosen_below_localePath hDir hChoose
    have hSame : l' = l := hVisit.of_locate hLocate hFile
    exact ⟨names, hSame ▸ hVisit, hLocate, isUnusedLocale_iff.mp hChoose⟩
  · rintro ⟨names, hVisit, hLocate, hFree⟩
    obtain ⟨data, hNode⟩ := hFile
    refine ⟨_, ⟨localePath, localePath_mem, names, l, data, hVisit, hNode, rfl, ?_⟩, hLocate⟩
    exact isUnusedLocale_iff.mpr hFree

/-- On every tree, the pass decides by the locale exactly where it finds the
files of unwanted locales, and no others, by paths that have none of the
codes to keep anywhere in them. -/
theorem decidesByLocale_iff (env : Env) (hWet : env.dryRun = false) (t : Volume) :
    DecidesByLocale env t ↔ CodesDecide t := by
  have hRemoved : ∀ l, RegularFile t l →
      ((removeUnusedLocales env (.start t)).2.tree.node l = none ↔ CodeFree t l) := by
    intro l hFile
    exact (file_pruned_iff hWet hFile).trans (chosen_iff_codeFree hFile)
  constructor
  · intro h dir hDir first rest l hVisit hLocate hCritical
    rw [← hRemoved l hVisit.file]
    exact h dir hDir first rest l hVisit hLocate hCritical
  · intro h dir hDir first rest l hVisit hLocate hCritical
    rw [hRemoved l hVisit.file]
    exact h dir hDir first rest l hVisit hLocate hCritical

end Decision

/-- A system with a translation whose own name has a code to keep in it. -/
def portugueseSystem : FileSystem where
  volume := {
    entries :=
      [(["system".toList], .dir),
        (["system".toList, "usr".toList], .dir),
        (["system".toList, "usr".toList, "share".toList], .dir),
        (["system".toList, "usr".toList, "share".toList, "locale".toList], .dir),
        (["system".toList, "usr".toList, "share".toList, "locale".toList, "pt_BR".toList], .dir),
        (["system".toList, "usr".toList, "share".toList, "locale".toList, "pt_BR".toList,
          "device.mo".toList],
          .file { content := [222, 18, 4, 149], modified := 0, executable := false })]
    cwd := [] }
  distinct := by decide
  standing := by decide
  named := by decide

def deviceMo : Location :=
  ["system".toList, "usr".toList, "share".toList, "locale".toList, "pt_BR".toList,
    "device.mo".toList]

theorem deviceMo_visit :
    Visit portugueseSystem.volume localePath ["pt_BR".toList, "device.mo".toList] deviceMo where
  root := by decide
  below := List.cons_ne_nil _ _
  visible := by
    rw [List.forall_mem_cons, List.forall_mem_singleton]
    exact ⟨⟨by decide, by decide⟩, by decide, by decide⟩
  leads := by decide
  file := ⟨{ content := [222, 18, 4, 149], modified := 0, executable := false }, by decide⟩

theorem deviceMo_stays :
    (removeUnusedLocales toybox (.start portugueseSystem.volume)).2.tree.node deviceMo ≠ none := by
  decide +kernel

/-- The translation stays, for the sake of the `de` in its name. -/
theorem locale_not_decisive :
    ¬ ∀ (env : Env) (t : Volume), env.dryRun = false → DecidesByLocale env t := by
  intro hClaim
  have hDecision := hClaim toybox portugueseSystem.volume rfl localePath localePath_mem _ _ _
    deviceMo_visit (by decide) (by decide +kernel)
  exact deviceMo_stays (hDecision.mpr (by decide))

theorem decidesByLocale_portuguese :
    DecidesByLocale toybox portugueseSystem.volume ↔ CodesDecide portugueseSystem.volume :=
  decidesByLocale_iff toybox rfl portugueseSystem.volume

end SystemOptimizer
