import Mathlib.Data.BitVec
import Mathlib.Data.List.Basic

/-!
# klib's string comparisons

`strcmp`, `strncmp` and `memcmp` of `string.c`.  A string is the list of its
bytes from the pointer on, the terminating NUL included; a read behind it is
`none`.  Plain `char` is signed or unsigned as the target has it, and `strcmp`
alone compares it.

`string_induction` is how a comparison of two strings can go, and the three
functions are specified along it; the results are then compared as orders of byte
strings (`byteOrder`), where only the sign matters.

`agrees_iff` has the strings on which a program gets the same answer from all
three, for both kinds of `char`.
-/

namespace Riscv32.Klib

abbrev Byte := BitVec 8

/-- The value a plain `char` is promoted to. -/
def charVal (signed : Bool) (c : Byte) : Int := if signed then c.toInt else c.toNat

/-- `strcmp`. -/
def strcmp (signed : Bool) : List Byte → List Byte → Option Int
  | c :: s1, d :: s2 =>
    if c ≠ 0 ∧ d ≠ 0 then
      if charVal signed c < charVal signed d then some (-1)
      else if charVal signed d < charVal signed c then some 1
      else strcmp signed s1 s2
    else if c = d then some 0
    else some (if c = 0 then -1 else 1)
  | _, _ => none

/-- `strncmp`; the casts to `uint8_t` leave no use for the sign of `char`. -/
def strncmp : List Byte → List Byte → Nat → Option Int
  | _, _, 0 => some 0
  | c :: s1, d :: s2, n + 1 =>
    if c ≠ d ∨ c = 0 then some ((c.toNat : Int) - d.toNat) else strncmp s1 s2 n
  | _, _, _ => none

/-- `memcmp`. -/
def memcmp : List Byte → List Byte → Nat → Option Int
  | _, _, 0 => some 0
  | c :: d, e :: s, n + 1 =>
    if c.toNat < e.toNat then some (-1)
    else if e.toNat < c.toNat then some 1
    else memcmp d s n
  | _, _, _ => none

/-- A NUL-terminated string, without its NUL. -/
structure CString where
  bytes : List Byte
  noNul : ∀ c ∈ bytes, c ≠ 0

/-- The string in memory. -/
def CString.stored (s : CString) : List Byte := s.bytes ++ [0]

/-! ## The order they decide -/

/-- The lexicographic order of byte strings by the values of the bytes. -/
def byteOrder (val : Byte → Int) : List Byte → List Byte → Ordering :=
  List.compareLex (compareOn val)

instance (val : Byte → Int) : Std.TransCmp (byteOrder val) :=
  inferInstanceAs (Std.TransCmp (List.compareLex (compareOn val)))

/-- The order as the sign of a result. -/
def orderSign : Ordering → Int
  | .lt => -1
  | .eq => 0
  | .gt => 1

theorem orderSign_sign (o : Ordering) : (orderSign o).sign = orderSign o := by
  cases o <;> rfl

theorem orderSign_swap (o : Ordering) : orderSign o.swap = -orderSign o := by
  cases o <;> rfl

theorem orderSign_injective {o o' : Ordering} (h : orderSign o = orderSign o') : o = o' := by
  cases o <;> cases o' <;> first | rfl | exact absurd h (by decide)

theorem orderSign_nonpos (o : Ordering) : orderSign o ≤ 0 ↔ o.isLE = true := by
  cases o <;> decide

theorem orderSign_neg (o : Ordering) : orderSign o < 0 ↔ o = .lt := by
  cases o <;> decide

theorem charVal_injective (signed : Bool) : Function.Injective (charVal signed) := by
  intro c d h
  cases signed with
  | false => exact BitVec.eq_of_toNat_eq (by simpa [charVal] using h)
  | true => exact BitVec.eq_of_toInt_eq (by simpa [charVal] using h)

section Values

variable {val : Byte → Int}

theorem byteOrder_cons (c d : Byte) (s t : List Byte) :
    byteOrder val (c :: s) (d :: t) = (compare (val c) (val d)).then (byteOrder val s t) :=
  List.compareLex_cons_cons

/-- The first bytes decide, unless they are equal. -/
theorem byteOrder_lt {c d : Byte} (s t : List Byte) (h : val c < val d) :
    byteOrder val (c :: s) (d :: t) = .lt := by
  rw [byteOrder_cons, Int.compare_eq_lt.2 h]
  rfl

theorem byteOrder_gt {c d : Byte} (s t : List Byte) (h : val d < val c) :
    byteOrder val (c :: s) (d :: t) = .gt := by
  rw [byteOrder_cons, Int.compare_eq_gt.2 h]
  rfl

theorem byteOrder_same (c : Byte) (s t : List Byte) :
    byteOrder val (c :: s) (c :: t) = byteOrder val s t := by
  rw [byteOrder_cons, Int.compare_eq_eq.2 rfl]
  rfl

/-- Different bytes decide, whatever follows. -/
theorem byteOrder_differ {c d : Byte} (s t : List Byte) (h : val c ≠ val d) :
    byteOrder val (c :: s) (d :: t) = if val c < val d then .lt else .gt := by
  by_cases hLt : val c < val d
  · rw [if_pos hLt, byteOrder_lt s t hLt]
  · rw [if_neg hLt, byteOrder_gt s t (by omega)]

end Values

/-- How a comparison of two strings can go: both end, one ends first, the next
bytes differ, or they are the same and it goes on. -/
@[elab_as_elim]
theorem string_induction {P : List Byte → List Byte → Prop} (s t : List Byte)
    (hs : ∀ c ∈ s, c ≠ 0) (ht : ∀ c ∈ t, c ≠ 0) (both : P [] [])
    (left : ∀ d t, d ≠ 0 → P [] (d :: t)) (right : ∀ c s, c ≠ 0 → P (c :: s) [])
    (differ : ∀ c s d t, c ≠ 0 → d ≠ 0 → c ≠ d → P (c :: s) (d :: t))
    (same : ∀ c s t, c ≠ 0 → P s t → P (c :: s) (c :: t)) : P s t := by
  induction s generalizing t with
  | nil =>
      cases t with
      | nil => exact both
      | cons d t => exact left d t (ht d (by simp))
  | cons c s ih =>
      have hc := hs c (by simp)
      cases t with
      | nil => exact right c s hc
      | cons d t =>
          by_cases hSame : c = d
          · subst hSame
            exact same c s t hc (ih t (fun e he => hs e (by simp [he]))
              fun e he => ht e (by simp [he]))
          · exact differ c s d t hc (ht d (by simp)) hSame

theorem nul_lt {c : Byte} (h : c ≠ 0) : (0 : Byte).toNat < c.toNat :=
  Nat.pos_of_ne_zero fun hZero => h (BitVec.eq_of_toNat_eq hZero)

/-- `strcmp` decides the order of the plain `char` values. -/
theorem strcmp_eq (signed : Bool) (s t : List Byte) (hs : ∀ c ∈ s, c ≠ 0) (ht : ∀ c ∈ t, c ≠ 0) :
    strcmp signed (s ++ [0]) (t ++ [0]) = some (orderSign (byteOrder (charVal signed) s t)) := by
  refine string_induction s t hs ht ?both ?left ?right ?differ ?same
  case both => rfl
  case left =>
    intro d t hd
    rw [List.nil_append, List.cons_append, strcmp, if_neg fun h => h.1 rfl, if_neg (Ne.symm hd),
      if_pos rfl]
    rfl
  case right =>
    intro c s hc
    rw [List.cons_append, List.nil_append, strcmp, if_neg fun h => h.2 rfl, if_neg hc, if_neg hc]
    rfl
  case differ =>
    intro c s d t hc hd hNe
    have hVal : charVal signed c ≠ charVal signed d := fun h => hNe (charVal_injective signed h)
    rw [List.cons_append, List.cons_append, strcmp, if_pos ⟨hc, hd⟩, byteOrder_differ s t hVal]
    by_cases hLt : charVal signed c < charVal signed d
    · rw [if_pos hLt, if_pos hLt]
      rfl
    · rw [if_neg hLt, if_neg hLt, if_pos (by omega)]
      rfl
  case same =>
    intro c s t hc ih
    rw [List.cons_append, List.cons_append, strcmp, if_pos ⟨hc, hc⟩, if_neg (Int.lt_irrefl _),
      if_neg (Int.lt_irrefl _), ih, byteOrder_same]

theorem sign_sub_of_lt {c d : Byte} (h : c.toNat < d.toNat) :
    ((c.toNat : Int) - d.toNat).sign = -1 := Int.sign_eq_neg_one_of_neg (by omega)

theorem sign_sub_of_gt {c d : Byte} (h : d.toNat < c.toNat) :
    ((c.toNat : Int) - d.toNat).sign = 1 := Int.sign_eq_one_of_pos (by omega)

/-- A bound beyond the string leaves room for one more byte. -/
theorem forall_beyond {P : Nat → Prop} {k : Nat} (h : ∀ n, k ≤ n → P (n + 1)) (n : Nat)
    (hn : k < n) : P n := by
  cases n with
  | zero => exact absurd hn (Nat.not_lt_zero k)
  | succ n => exact h n (Nat.le_of_lt_succ hn)

/-- `strncmp` decides the order of the bytes, if `n` is beyond both strings. -/
theorem strncmp_sign (s t : List Byte) (hs : ∀ c ∈ s, c ≠ 0) (ht : ∀ c ∈ t, c ≠ 0) :
    ∀ n, s.length < n → t.length < n → (strncmp (s ++ [0]) (t ++ [0]) n).map Int.sign =
      some (orderSign (byteOrder (charVal false) s t)) := by
  refine string_induction s t hs ht ?both ?left ?right ?differ ?same
  case both => exact forall_beyond fun n _ _ => rfl
  case left =>
    intro d t hd
    refine forall_beyond fun n _ _ => ?_
    rw [List.nil_append, List.cons_append, strncmp, if_pos (.inr rfl), Option.map_some,
      sign_sub_of_lt (nul_lt hd)]
    rfl
  case right =>
    intro c s hc
    refine forall_beyond fun n _ _ => ?_
    rw [List.cons_append, List.nil_append, strncmp, if_pos (.inl hc), Option.map_some,
      sign_sub_of_gt (nul_lt hc)]
    rfl
  case differ =>
    intro c s d t _ _ hNe
    refine forall_beyond fun n _ _ => ?_
    rw [List.cons_append, List.cons_append, strncmp, if_pos (.inl hNe), Option.map_some]
    cases Nat.lt_or_gt_of_ne fun h => hNe (BitVec.eq_of_toNat_eq h) with
    | inl hLt =>
        rw [sign_sub_of_lt hLt, byteOrder_lt s t (Int.ofNat_lt.2 hLt)]
        rfl
    | inr hGt =>
        rw [sign_sub_of_gt hGt, byteOrder_gt s t (Int.ofNat_lt.2 hGt)]
        rfl
  case same =>
    intro c s t hc ih
    refine forall_beyond fun n hn hm => ?_
    rw [List.length_cons] at hn hm
    rw [List.cons_append, List.cons_append, strncmp, if_neg (not_or.2 ⟨not_not.2 rfl, hc⟩),
      ih n (by omega) (by omega), byteOrder_same]

/-- `memcmp` decides it over the shorter string and its NUL. -/
theorem memcmp_eq (s t : List Byte) (hs : ∀ c ∈ s, c ≠ 0) (ht : ∀ c ∈ t, c ≠ 0) :
    memcmp (s ++ [0]) (t ++ [0]) (min s.length t.length + 1) =
      some (orderSign (byteOrder (charVal false) s t)) := by
  refine string_induction s t hs ht ?both ?left ?right ?differ ?same
  case both => rfl
  case left =>
    intro d t hd
    rw [List.nil_append, List.cons_append, memcmp, if_pos (nul_lt hd)]
    rfl
  case right =>
    intro c s hc
    rw [List.cons_append, List.nil_append, memcmp, if_neg (Nat.lt_asymm (nul_lt hc)),
      if_pos (nul_lt hc)]
    rfl
  case differ =>
    intro c s d t _ _ hNe
    rw [List.cons_append, List.cons_append, memcmp]
    cases Nat.lt_or_gt_of_ne fun h => hNe (BitVec.eq_of_toNat_eq h) with
    | inl hLt =>
        rw [if_pos hLt, byteOrder_lt s t (Int.ofNat_lt.2 hLt)]
        rfl
    | inr hGt =>
        rw [if_neg (Nat.lt_asymm hGt), if_pos hGt, byteOrder_gt s t (Int.ofNat_lt.2 hGt)]
        rfl
  case same =>
    intro c s t _ ih
    rw [List.cons_append, List.cons_append, memcmp, if_neg (Nat.lt_irrefl _),
      if_neg (Nat.lt_irrefl _), byteOrder_same, List.length_cons, List.length_cons,
      Nat.succ_min_succ]
    exact ih

/-! ## Agreement -/

/-- Both bytes are below `0x80`, or neither is. -/
def SameHalf (c d : Byte) : Prop := c.toNat < 128 ↔ d.toNat < 128

/-- Where both strings have a byte and first differ, the two are of one half. -/
def FirstAlike : List Byte → List Byte → Prop
  | c :: s, d :: t => if c = d then FirstAlike s t else SameHalf c d
  | _, _ => True

/-- Two different bytes are ordered alike by both kinds of `char` just when
they are of one half. -/
theorem charVal_lt_iff {c d : Byte} (hNe : c ≠ d) :
    (charVal true c < charVal true d ↔ charVal false c < charVal false d) ↔ SameHalf c d := by
  have hNat : c.toNat ≠ d.toNat := fun h => hNe (BitVec.eq_of_toNat_eq h)
  have hc := c.isLt
  have hd := d.isLt
  have hInt : ∀ e : Byte, charVal true e =
      if e.toNat < 128 then (e.toNat : Int) else e.toNat - 256 := fun e => by
    show e.toInt = _
    rw [BitVec.toInt_eq_toNat_cond]
    split <;> split <;> omega
  rw [SameHalf, hInt, hInt]
  show (_ < _ ↔ (c.toNat : Int) < d.toNat) ↔ _
  split <;> split <;> omega

/-- The two orders agree on two strings just when their first difference is
within one half. -/
theorem byteOrder_charVal_iff (s t : List Byte) :
    byteOrder (charVal true) s t = byteOrder (charVal false) s t ↔ FirstAlike s t := by
  induction s generalizing t with
  | nil => cases t <;> exact iff_of_true rfl trivial
  | cons c s ih =>
      cases t with
      | nil => exact iff_of_true rfl trivial
      | cons d t =>
          rw [FirstAlike]
          by_cases hSame : c = d
          · rw [if_pos hSame, hSame, byteOrder_same, byteOrder_same]
            exact ih t
          · have hVal : ∀ signed, charVal signed c ≠ charVal signed d := fun signed h =>
              hSame (charVal_injective signed h)
            rw [if_neg hSame, byteOrder_differ s t (hVal true), byteOrder_differ s t (hVal false),
              ← charVal_lt_iff hSame]
            by_cases hTrue : charVal true c < charVal true d <;>
              by_cases hFalse : charVal false c < charVal false d <;> simp only [hTrue, hFalse] <;>
              decide

section Comparisons

variable (signed : Bool) (a b c : CString)

/-- `strcmp` on two strings in memory. -/
def CString.cmp : Option Int := strcmp signed a.stored b.stored

theorem cmp_eq : a.cmp signed b = some (orderSign (byteOrder (charVal signed) a.bytes b.bytes)) :=
  strcmp_eq signed a.bytes b.bytes a.noNul b.noNul

/-- What a program relies on when it compares `a` with `b`. -/
structure Agrees : Prop where
  /-- `strcmp` has the sign of the order of the strings as unsigned bytes. -/
  order : (a.cmp signed b).map Int.sign =
    some (orderSign (byteOrder (charVal false) a.bytes b.bytes))
  /-- `strncmp` has it too. -/
  strncmp : ∀ n, a.bytes.length < n → b.bytes.length < n →
    (a.cmp signed b).map Int.sign = (Klib.strncmp a.stored b.stored n).map Int.sign
  /-- `memcmp` has it too. -/
  memcmp : (a.cmp signed b).map Int.sign =
    (Klib.memcmp a.stored b.stored (min a.bytes.length b.bytes.length + 1)).map Int.sign
  antisymm : b.cmp signed a = (a.cmp signed b).map Neg.neg
  trans : ∀ c : CString, ∀ r ∈ a.cmp signed b, ∀ s ∈ b.cmp signed c, r ≤ 0 → s ≤ 0 →
    ∃ t ∈ a.cmp signed c, t ≤ 0 ∧ (r < 0 ∨ s < 0 → t < 0)

theorem cmp_antisymm : b.cmp signed a = (a.cmp signed b).map Neg.neg := by
  rw [cmp_eq, cmp_eq, Option.map_some, ← orderSign_swap]
  exact congrArg (some ∘ orderSign) Std.OrientedCmp.eq_swap

variable {signed a b c}

theorem cmp_trans {r s : Int} (hr : r ∈ a.cmp signed b) (hs : s ∈ b.cmp signed c) (hab : r ≤ 0)
    (hbc : s ≤ 0) : ∃ t ∈ a.cmp signed c, t ≤ 0 ∧ (r < 0 ∨ s < 0 → t < 0) := by
  rw [cmp_eq] at hr hs
  cases hr
  cases hs
  rw [orderSign_nonpos] at hab hbc
  refine ⟨_, cmp_eq signed a c, (orderSign_nonpos _).2 (Std.TransCmp.isLE_trans hab hbc), ?_⟩
  rw [orderSign_neg, orderSign_neg, orderSign_neg]
  intro hStrict
  cases hStrict with
  | inl hLt => exact Std.TransCmp.lt_of_lt_of_isLE hLt hbc
  | inr hLt => exact Std.TransCmp.lt_of_isLE_of_lt hab hLt

end Comparisons

/--
**When klib's string comparisons agree**: always if plain `char` is unsigned,
and otherwise exactly for strings whose first difference is within one half of
the byte values.
-/
theorem agrees_iff (signed : Bool) (a b : CString) :
    Agrees signed a b ↔ (signed = true → FirstAlike a.bytes b.bytes) := by
  constructor
  · intro hAgrees hSigned
    have hOrder := hAgrees.order
    rw [cmp_eq, Option.map_some, orderSign_sign, hSigned] at hOrder
    exact (byteOrder_charVal_iff _ _).1 (orderSign_injective (Option.some.inj hOrder))
  · intro hAlike
    have hOrder : byteOrder (charVal signed) a.bytes b.bytes =
        byteOrder (charVal false) a.bytes b.bytes := by
      cases signed with
      | false => rfl
      | true => exact (byteOrder_charVal_iff _ _).2 (hAlike rfl)
    have hSign : (a.cmp signed b).map Int.sign =
        some (orderSign (byteOrder (charVal false) a.bytes b.bytes)) := by
      rw [cmp_eq, Option.map_some, orderSign_sign, hOrder]
    exact
      { order := hSign
        strncmp := fun n hn hm => hSign.trans
          (strncmp_sign a.bytes b.bytes a.noNul b.noNul n hn hm).symm
        memcmp := by
          rw [hSign, CString.stored, CString.stored, memcmp_eq a.bytes b.bytes a.noNul b.noNul,
            Option.map_some, orderSign_sign]
        antisymm := cmp_antisymm signed a b
        trans := fun _ _ hr _ hs => cmp_trans hr hs }

/-- A byte of each half. -/
def highString : CString := ⟨[0x80], by decide⟩

def lowString : CString := ⟨[0x01], by decide⟩

/-- With signed `char`, `strcmp` puts the byte `0x80` before the byte 1. -/
theorem not_agrees_high : ¬ Agrees true highString lowString := fun hAgrees =>
  absurd hAgrees.order (by decide)

end Riscv32.Klib
