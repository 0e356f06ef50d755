import Gtexswifi.Library.SortedTable
import Mathlib.Algebra.Ring.Nat
import Mathlib.Order.Nat

/-! `dtbtool`: the id triples that a device tree declares, and the sorted
list of chips. -/
namespace Dtbtool

structure ChipId where
  chipset : UInt32
  platform : UInt32
  revNum : UInt32
  deriving DecidableEq

/-- A node of `chip_list`. The pointer `master` is the place, in the order
of `readdir`, of the file that the node was read from. -/
structure ChipInfo where
  id : ChipId
  master : Nat
  deriving DecidableEq

/-- `QCDT_DT_TAG`. -/
def qcdtDtTag : List Char := "sprd,sc-id = <".toList

/-- What follows the first tag of a line. -/
def afterTag : List Char → Option (List Char)
  | [] => none
  | c :: line =>
      if qcdtDtTag.isPrefixOf (c :: line) then some ((c :: line).drop qcdtDtTag.length)
      else afterTag line

/-- The tokens that `strtok_r` returns one after the other. -/
def tokens (line : List Char) : List (List Char) :=
  (line.splitOnP fun c => c = ' ' ∨ c = '\t').filter (· ≠ [])

def digitValue (c : Char) : Nat :=
  if '0' ≤ c ∧ c ≤ '9' then c.toNat - 48
  else if 'a' ≤ c ∧ c ≤ 'z' then c.toNat - 87
  else if 'A' ≤ c ∧ c ≤ 'Z' then c.toNat - 55
  else 36

def readDigits (base : Nat) (s : List Char) : Nat :=
  ((s.map digitValue).takeWhile (· < base)).foldl (fun value digit => value * base + digit) 0

/-- The digits in the base that their prefix names. A `0x` without a digit
is a zero. -/
def readMagnitude (s : List Char) : Nat :=
  if s.head? = some '0' then
    if (s[1]? = some 'x' ∨ s[1]? = some 'X') ∧ (s[2]?.map digitValue).getD 36 < 16 then
      readDigits 16 (s.drop 2)
    else readDigits 8 s
  else readDigits 10 s

/-- `ULONG_MAX`. -/
def ulongMax : Nat := 2 ^ 64 - 1

def isSpace (c : Char) : Bool := c = ' ' ∨ (9 ≤ c.toNat ∧ c.toNat ≤ 13)

/-- `strtoul` with base 0. -/
def strtoul (tok : List Char) : Nat :=
  let s := tok.dropWhile isSpace
  let magnitude := if s.head? = some '-' ∨ s.head? = some '+' then readMagnitude (s.drop 1)
    else readMagnitude s
  if ulongMax < magnitude then ulongMax
  else if s.head? = some '-' then (2 ^ 64 - magnitude) % 2 ^ 64
  else magnitude

/-- The entries up to a token that starts with `>`, or up to the first
incomplete one. -/
def entries : List (List Char) → List ChipId
  | tok₀ :: tok₁ :: tok₂ :: rest =>
      if tok₀.head? = some '>' ∨ tok₁.head? = some '>' ∨ tok₂.head? = some '>' then []
      else
        ⟨UInt32.ofNat (strtoul tok₀), UInt32.ofNat (strtoul tok₁), UInt32.ofNat (strtoul tok₂)⟩ ::
          entries rest
  | _ => []

/-- The entries that the first line with the tag declares. A line ends at a
zero character. -/
def declaredIds (lines : List (List Char)) : List ChipId :=
  match lines.findSome? fun line => afterTag (line.takeWhile (· ≠ Char.ofNat 0)) with
  | none => []
  | some pos => entries (tokens pos)

/-- Chain an entry behind the first one. -/
def linkEntry : List ChipId → ChipId → List ChipId
  | [], tmp => [tmp]
  | chip :: tNext, tmp => chip :: tmp :: tNext

/-- The chain along `t_next`. It is empty where the source returns `NULL`. -/
def getChipInfo (lines : List (List Char)) : List ChipId :=
  (declaredIds lines).foldl linkEntry []

/-- An entry is put into the chain and none is taken out of it. -/
theorem perm_linkEntry (chain : List ChipId) (tmp : ChipId) :
    (linkEntry chain tmp).Perm (tmp :: chain) := by
  cases chain with
  | nil => exact List.Perm.refl _
  | cons chip tNext => exact List.Perm.swap tmp chip tNext

/-- All the entries of a property are in the chain in the end, each once. -/
theorem perm_foldl_linkEntry (ids chain : List ChipId) :
    (ids.foldl linkEntry chain).Perm (ids ++ chain) := by
  induction ids generalizing chain with
  | nil => exact List.Perm.refl _
  | cons id rest ih =>
      exact ((ih _).trans ((perm_linkEntry chain id).append_left rest)).trans List.perm_middle

/-- The chain has the declared entries in another order. -/
theorem perm_getChipInfo (lines : List (List Char)) :
    (getChipInfo lines).Perm (declaredIds lines) := by
  have hPerm := perm_foldl_linkEntry (declaredIds lines) []
  rw [List.append_nil] at hPerm
  exact hPerm

/-- The first entry stays the first. Later ones are put behind it. -/
theorem head_linkEntry (chip : ChipId) (tNext : List ChipId) (ids : List ChipId) :
    (ids.foldl linkEntry (chip :: tNext)).head? = some chip := by
  induction ids generalizing tNext with
  | nil => rfl
  | cons id rest ih => exact ih _

/-- The master of a file is its first entry. -/
theorem head_getChipInfo (lines : List (List Char)) :
    (getChipInfo lines).head? = (declaredIds lines).head? := by
  rw [getChipInfo]
  cases declaredIds lines with
  | nil => rfl
  | cons chip rest => exact head_linkEntry chip [] rest

/-- The order of `chip_add`: by chipset, platform and revision. -/
def ChipId.precedes (c x : ChipId) : Bool :=
  c.chipset < x.chipset ∨
    (c.chipset = x.chipset ∧
      (c.platform < x.platform ∨ (c.platform = x.platform ∧ c.revNum < x.revNum)))

/-- The loop of `chip_add` from a node on; a duplicate is an error. -/
def chipAdd (c : ChipInfo) : List ChipInfo → Option (List ChipInfo)
  | [] => some [c]
  | x :: next =>
      if c.id.precedes x.id then some (c :: x :: next)
      else if c.id.chipset = x.id.chipset ∧ c.id.platform = x.id.platform ∧
          c.id.revNum = x.id.revNum then none
      else (chipAdd c next).map (x :: ·)

/-- The triple as one number, most significant part first. -/
def ChipId.rank (id : ChipId) : Nat :=
  (id.chipset.toNat * 2 ^ 32 + id.platform.toNat) * 2 ^ 32 + id.revNum.toNat

theorem ChipId.rank_inj {a b : ChipId} : a.rank = b.rank ↔ a = b := by
  constructor
  · intro h
    have hPlatform := a.platform.toNat_lt
    have hPlatform' := b.platform.toNat_lt
    have hRev := a.revNum.toNat_lt
    have hRev' := b.revNum.toNat_lt
    unfold rank at h
    have hParts : a.chipset.toNat = b.chipset.toNat ∧ a.platform.toNat = b.platform.toNat ∧
        a.revNum.toNat = b.revNum.toNat := by
      omega
    cases a
    cases b
    simp only [mk.injEq]
    exact ⟨UInt32.toNat_inj.mp hParts.1, UInt32.toNat_inj.mp hParts.2.1,
      UInt32.toNat_inj.mp hParts.2.2⟩
  · rintro rfl
    rfl

/-- The three comparisons of `chip_add`, one in the other, are the order of
the ranks. -/
theorem ChipId.precedes_iff {a b : ChipId} : a.precedes b = true ↔ a.rank < b.rank := by
  have hPlatform := a.platform.toNat_lt
  have hPlatform' := b.platform.toNat_lt
  have hRev := a.revNum.toNat_lt
  have hRev' := b.revNum.toNat_lt
  simp only [precedes, rank, decide_eq_true_eq, UInt32.lt_iff_toNat_lt, ← UInt32.toNat_inj]
  omega

/-- The test for a double compares the three parts, which is all of the
identifier. -/
theorem same_parts {a b : ChipId} :
    (a.chipset = b.chipset ∧ a.platform = b.platform ∧ a.revNum = b.revNum) ↔
      a.rank = b.rank := by
  rw [ChipId.rank_inj]
  cases a
  cases b
  simp only [ChipId.mk.injEq]

/-- The key by which the list is sorted. -/
def ChipInfo.rank (c : ChipInfo) : Nat := c.id.rank

/-- `chip_add` is the insertion of a unique entry into a sorted table. -/
theorem chipAdd_eq (c : ChipInfo) (list : List ChipInfo) :
    chipAdd c list = SortedTable.insertUnique ChipInfo.rank c list := by
  induction list with
  | nil => rfl
  | cons x next ih =>
      rw [chipAdd, SortedTable.insertUnique, ih]
      by_cases hLess : c.rank < x.rank
      · rw [if_pos (ChipId.precedes_iff.mpr hLess), if_pos hLess]
      · rw [if_neg (mt ChipId.precedes_iff.mp hLess), if_neg hLess]
        by_cases hSame : c.rank = x.rank
        · rw [if_pos (same_parts.mpr hSame), if_pos hSame]
        · rw [if_neg (mt same_parts.mp hSame), if_neg hSame]

end Dtbtool
