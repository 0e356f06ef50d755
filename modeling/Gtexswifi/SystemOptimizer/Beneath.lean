import Gtexswifi.SystemOptimizer.Course

/-! Trees without links: whatever a run removes lies beneath a directory
that it searches, over names that a scan does not pass over. -/
namespace SystemOptimizer

open FileTree

/-- The directories below which something may be removed. -/
def searchedDirs (env : Env) : List Text :=
  (removers env).flatMap Remover.dirs ++ (appPath :: privAppPath :: libPath :: archDirs)

theorem ne_nil_of_stat {t : Volume} {path : Text} (h : t.stat path = some .dir) : path ≠ [] := by
  rintro rfl
  cases h

theorem entryPath_ne_nil (dir name : Text) : entryPath dir name ≠ [] :=
  List.append_ne_nil_of_right_ne_nil _ (List.cons_ne_nil _ _)

/-- A location reached from a directory over names that a scan does not pass
over. -/
def Beneath (t : Volume) (dir : Text) (l : Location) : Prop :=
  ∃ base names, t.resolve dir = some base ∧ l = base ++ names ∧ ∀ name ∈ names, Visible name

section LinkFree

variable {env : Env} {t : Volume} {dir : Text} {l : Location} (hFree : t.LinkFree)

include hFree

/-- A visible entry of a directory that is reached from below the target is
reached from there as well. -/
theorem Beneath.entry {parent name : Text} {base : Location} (h : Beneath t dir base)
    (hBase : t.resolve parent = some base) (hParent : parent ≠ []) (hName : Visible name)
    (hEntry : t.resolve (entryPath parent name) = some l) : Beneath t dir l := by
  obtain ⟨base', hBase', rfl⟩ :=
    resolve_entry hFree hParent hName.1 (of_decide_eq_false hName.2) hEntry
  obtain rfl := Option.some.inj (hBase.symm.trans hBase')
  obtain ⟨top, names, hTop, rfl, hNames⟩ := h
  refine ⟨top, names ++ [name], hTop, List.append_assoc _ _ _, ?_⟩
  intro other hOther
  cases List.mem_append.mp hOther with
  | inl hMem => exact hNames other hMem
  | inr hMem => exact List.mem_singleton.mp hMem ▸ hName

/-- Every directory that a scan opens is reached from below the one it has
started at, with links followed. -/
theorem opened_beneath {parent : Text} (h : Opened t dir parent) :
    parent ≠ [] ∧ ∃ base, t.resolve parent = some base ∧ Beneath t dir base := by
  induction h with
  | root hStat =>
      obtain ⟨l, hResolve, _⟩ := stat_eq_some.mp hStat
      exact ⟨ne_nil_of_stat hStat, l, hResolve, l, [], hResolve, (List.append_nil l).symm,
        fun _ hMem => nomatch hMem⟩
  | sub _ hName hStat ih =>
      obtain ⟨hParent, base, hBase, hBeneath⟩ := ih
      obtain ⟨l, hResolve, _⟩ := stat_eq_some.mp hStat
      exact ⟨entryPath_ne_nil _ _, l, hResolve,
        hBeneath.entry hFree hBase hParent hName hResolve⟩

/-- Whatever a scan names is located beneath the directory it has started
at. -/
theorem located_beneath {parent name : Text} (hOpened : Opened t dir parent)
    (hName : Visible name) (hLocate : t.locate (entryPath parent name) = some l) :
    Beneath t dir l := by
  obtain ⟨hParent, base, hBase, hBeneath⟩ := opened_beneath hFree hOpened
  exact hBeneath.entry hFree hBase hParent hName (resolve_of_locate hFree hLocate)

omit hFree in
/-- The temporary file of `optimizePNG` stands beside the image. -/
theorem temporary_entryPath (parent name : Text) :
    temporary (entryPath parent name) = entryPath parent (temporary name) :=
  List.append_assoc ..

omit hFree in
theorem visible_temporary {name : Text} (h : Visible name) : Visible (temporary name) := by
  obtain ⟨hProper, hHidden⟩ := h
  cases name with
  | nil => cases hProper
  | cons c name =>
      refine ⟨?_, hHidden⟩
      simp only [properName, Bool.and_eq_true, decide_eq_true_iff, Bool.not_eq_true',
        List.contains_eq_mem, decide_eq_false_iff_not] at hProper ⊢
      refine ⟨List.cons_ne_nil _ _, ?_⟩
      intro hSlash
      cases List.mem_append.mp hSlash with
      | inl hMem => exact hProper.2 hMem
      | inr hMem => exact absurd hMem (by decide)

/-- What a pass removes of the files it has listed is located beneath the
directory it has scanned. -/
theorem victim_beneath {remover : Remover} (hRemover : remover ∈ removers env) {path : Text}
    (hListed : Listed t dir path) (hLocate : t.locate (remover.victim path) = some l) :
    Beneath t dir l := by
  obtain ⟨parent, name, hOpened, hName, rfl⟩ := hListed
  have hVictim : remover.victim = id ∨ remover.victim = temporary := by
    simp only [removers, List.mem_cons, List.not_mem_nil, or_false] at hRemover
    rcases hRemover with rfl | rfl | rfl | rfl | rfl | rfl | rfl | rfl <;> simp
  cases hVictim with
  | inl hSelf =>
      rw [hSelf] at hLocate
      exact located_beneath hFree hOpened hName hLocate
  | inr hTemporary =>
      rw [hTemporary, temporary_entryPath] at hLocate
      exact located_beneath hFree hOpened (visible_temporary hName) hLocate

/-- What a recursive deletion erases is located beneath its path. -/
theorem erased_beneath (h : Erased t dir l) : Beneath t dir l := by
  cases h with
  | inl hLocate =>
      exact ⟨l, [], resolve_of_locate hFree hLocate, (List.append_nil l).symm,
        fun _ hMem => nomatch hMem⟩
  | inr hBelow =>
      obtain ⟨_, ⟨parent, name, hOpened, hName, rfl⟩, hLocate⟩ := hBelow
      exact located_beneath hFree hOpened hName hLocate

/-- What is beneath an entry of a directory is beneath the directory. -/
theorem Beneath.up {parent name : Text} (h : Beneath t (entryPath parent name) l)
    (hParent : parent ≠ []) (hName : Visible name) : Beneath t parent l := by
  obtain ⟨base, names, hBase, rfl, hNames⟩ := h
  obtain ⟨top, hTop, rfl⟩ :=
    resolve_entry hFree hParent hName.1 (of_decide_eq_false hName.2) hBase
  refine ⟨top, name :: names, hTop, List.append_assoc _ _ _, ?_⟩
  intro other hOther
  cases List.mem_cons.mp hOther with
  | inl hSame => exact hSame ▸ hName
  | inr hMem => exact hNames other hMem

omit hFree in
/-- A list of names that has been tested as a whole holds visible names
only. -/
theorem visible_of_all {names : List Text}
    (h : names.all (fun name => properName name && !hidden name) = true) {name : Text}
    (hMem : name ∈ names) : Visible name := by
  have hName := List.all_eq_true.mp h name hMem
  rw [Bool.and_eq_true, Bool.not_eq_true'] at hName
  exact hName

omit hFree in
theorem visible_app {app : Text} (hApp : app ∈ inSetOrder removableApps) : Visible app := by
  have hMem : app ∈ removableApps.map String.toList := by
    rw [inSetOrder, List.mem_dedup, List.mem_insertionSort] at hApp
    exact hApp
  exact visible_of_all (by decide) hMem

/-- Without links, whatever the passes remove lies beneath a directory that
they search. -/
theorem removed_beneath (h : Removed env t l) : ∃ dir ∈ searchedDirs env, Beneath t dir l := by
  cases h with
  | chosen hRemover hDir hPicked hLocate _ =>
      have hSearched : _ ∈ searchedDirs env :=
        List.mem_append_left _ (List.mem_flatMap.mpr ⟨_, hRemover, hDir⟩)
      exact ⟨_, hSearched, victim_beneath hFree hRemover hPicked.1 hLocate⟩
  | doomed hDir _ hErased _ =>
      have hBeneath := erased_beneath hFree hErased
      cases List.mem_append.mp hDir with
      | inl hApps =>
          obtain ⟨app, hApp, hPlace⟩ := List.mem_flatMap.mp hApps
          rcases List.mem_cons.mp hPlace with rfl | hPriv
          · exact ⟨appPath, List.mem_append_right _ List.mem_cons_self,
              hBeneath.up hFree (by decide) (visible_app hApp)⟩
          · obtain rfl := List.mem_singleton.mp hPriv
            exact ⟨privAppPath,
              List.mem_append_right _ (List.mem_cons_of_mem _ List.mem_cons_self),
              hBeneath.up hFree (by decide) (visible_app hApp)⟩
      | inr hArch =>
          exact ⟨_, List.mem_append_right _ (List.mem_cons_of_mem _ (List.mem_cons_of_mem _
            (List.mem_cons_of_mem _ hArch))), hBeneath⟩
  | lib hLib _ hErased _ =>
      have hName := visible_of_all (by decide) hLib
      exact ⟨libPath, List.mem_append_right _ (List.mem_cons_of_mem _ (List.mem_cons_of_mem _
        List.mem_cons_self)), (erased_beneath hFree hErased).up hFree (by decide) hName⟩

end LinkFree

/-- Without links, and without a place for the directory of the boot
animation, nothing is lost that no searched directory is above. -/
theorem not_lost {env : Env} {t : Volume} {l : Location} (hFree : t.LinkFree)
    (hPlace : t.locate tmpDir = none) (hClear : ∀ dir ∈ searchedDirs env, ¬ Beneath t dir l) :
    ¬ Lost env t l := by
  intro hLost
  cases hLost with
  | inl hRemoved =>
      obtain ⟨dir, hDir, hBeneath⟩ := removed_beneath hFree hRemoved
      exact hClear dir hDir hBeneath
  | inr hAnimated =>
      obtain ⟨_, top, hTop, _⟩ := hAnimated
      exact nomatch hPlace.symm.trans hTop

end SystemOptimizer
