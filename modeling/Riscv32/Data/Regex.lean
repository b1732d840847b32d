import Mathlib.Computability.RegularExpressions
import Mathlib.Data.Nat.Find

/-!
# Longest matches

What a POSIX matcher reports for a regular expression at the start of a text:
the length of the longest prefix that the expression matches (`longest`).  The
expressions are Mathlib's; the constructors added here are the ones an extended
regular expression is written with, each with the words it matches.

`longest` tries all prefixes and can be evaluated.  The rules below say what it
reports without trying any: a tokenizer's patterns each fall under one of them.

## Main results

* `longest_eq_some`, `longest_eq_none` — the specification of `longest`.
* `longest_of_delimited` — a class of letters that ends where the next letter is
  outside the class.
* `longest_lit`, `longest_eq_none_of_head` — a fixed text, and a text whose first
  letter starts no word.
-/

namespace Riscv32.Data

open RegularExpression

variable {α : Type}

namespace Regex

/-- `[cs]`. -/
def cls (cs : List α) : RegularExpression α := cs.foldr (fun c r => char c + r) 0

/-- The text `w` itself. -/
def lit (w : List α) : RegularExpression α := w.foldr (fun c r => char c * r) 1

/-- `[cs]+`. -/
def many (cs : List α) : RegularExpression α := cls cs * star (cls cs)

/-- `[cs]{lo,hi}`. -/
def between (cs : List α) (lo hi : Nat) : RegularExpression α :=
  cls cs ^ lo * (1 + cls cs) ^ (hi - lo)

/-- The length of the longest prefix of `s` that `r` matches. -/
def longest [DecidableEq α] (r : RegularExpression α) (s : List α) : Option Nat :=
  let n := Nat.findGreatest (fun n => r.rmatch (s.take n) = true) s.length
  if r.rmatch (s.take n) then some n else none

/-! ## Words -/

variable {cs w : List α}

theorem mem_char {c : α} : w ∈ (char c).matches' ↔ w = [c] := Iff.rfl

theorem mem_cls : w ∈ (cls cs).matches' ↔ ∃ c ∈ cs, w = [c] := by
  induction cs with
  | nil => simp [cls, Language.notMem_zero]
  | cons c cs ih =>
    have hStep : cls (c :: cs) = char c + cls cs := rfl
    rw [hStep, matches'_add, Language.mem_add, ih, mem_char]
    simp

theorem mem_lit {v : List α} : w ∈ (lit v).matches' ↔ w = v := by
  induction v generalizing w with
  | nil => simp [lit]
  | cons c v ih =>
    have hStep : lit (c :: v) = char c * lit v := rfl
    rw [hStep, matches'_mul, Language.mem_mul]
    simp only [mem_char, ih]
    constructor
    · rintro ⟨a, rfl, b, rfl, rfl⟩
      rfl
    · rintro rfl
      exact ⟨[c], rfl, v, rfl, rfl⟩

/-- Words over `cs` by their letters. -/
theorem flatten_mem_cls {S : List (List α)} (hS : ∀ y ∈ S, y ∈ (cls cs).matches') :
    S.flatten.length = S.length ∧ ∀ c ∈ S.flatten, c ∈ cs := by
  induction S with
  | nil => simp
  | cons y S ih =>
    obtain ⟨c, hc, rfl⟩ := mem_cls.1 (hS y (by simp))
    obtain ⟨hLen, hAll⟩ := ih fun z hz => hS z (by simp [hz])
    rw [List.flatten_cons]
    refine ⟨by simpa [Nat.add_comm] using hLen, ?_⟩
    intro d hd
    rcases List.mem_append.1 hd with hd | hd
    · exact List.mem_singleton.1 hd ▸ hc
    · exact hAll d hd

theorem map_singleton_mem_cls (hw : ∀ c ∈ w, c ∈ cs) :
    ∀ y ∈ w.map fun c => [c], y ∈ (cls cs).matches' := by
  intro y hy
  obtain ⟨c, hc, rfl⟩ := List.mem_map.1 hy
  exact mem_cls.2 ⟨c, hw c hc, rfl⟩

/-- The star of a class: all words over its letters. -/
theorem mem_star_cls : w ∈ (star (cls cs)).matches' ↔ ∀ c ∈ w, c ∈ cs := by
  rw [matches'_star, Language.mem_kstar]
  constructor
  · rintro ⟨S, rfl, hS⟩
    exact (flatten_mem_cls hS).2
  · intro hw
    exact ⟨w.map fun c => [c], by simp [← List.flatMap_def], map_singleton_mem_cls hw⟩

/-- One letter at least. -/
theorem mem_many : w ∈ (many cs).matches' ↔ w ≠ [] ∧ ∀ c ∈ w, c ∈ cs := by
  rw [many, matches'_mul, Language.mem_mul]
  constructor
  · rintro ⟨a, ha, b, hb, rfl⟩
    obtain ⟨c, hc, rfl⟩ := mem_cls.1 ha
    have hb := mem_star_cls.1 hb
    simp_all
  · rintro ⟨hNe, hw⟩
    obtain ⟨c, w, rfl⟩ := List.exists_cons_of_ne_nil hNe
    refine ⟨[c], mem_cls.2 ⟨c, hw c (by simp), rfl⟩, w, mem_star_cls.2 ?_, rfl⟩
    intro d hd
    exact hw d (by simp [hd])

theorem mem_cls_pow {n : Nat} :
    w ∈ (cls cs ^ n).matches' ↔ w.length = n ∧ ∀ c ∈ w, c ∈ cs := by
  rw [matches'_pow, Language.mem_pow]
  constructor
  · rintro ⟨S, rfl, hLen, hS⟩
    obtain ⟨hFlat, hAll⟩ := flatten_mem_cls hS
    exact ⟨hFlat.trans hLen, hAll⟩
  · rintro ⟨hLen, hw⟩
    exact ⟨w.map fun c => [c], by simp [← List.flatMap_def], by simpa, map_singleton_mem_cls hw⟩

theorem mem_opt_cls_pow {n : Nat} :
    w ∈ ((1 + cls cs) ^ n).matches' ↔ w.length ≤ n ∧ ∀ c ∈ w, c ∈ cs := by
  induction n generalizing w with
  | zero =>
    rw [matches'_pow, pow_zero, Language.mem_one]
    constructor
    · rintro rfl
      simp
    · rintro ⟨hLen, -⟩
      exact List.eq_nil_of_length_eq_zero (by omega)
  | succ n ih =>
    rw [matches'_pow, pow_succ', Language.mem_mul, ← matches'_pow]
    simp only [matches'_add, matches'_epsilon, Language.mem_add, Language.mem_one, mem_cls]
    constructor
    · rintro ⟨a, (rfl | ⟨c, hc, rfl⟩), b, hb, rfl⟩
      · have hb := ih.1 hb
        exact ⟨by simp; omega, by simpa using hb.2⟩
      · have hb := ih.1 hb
        simp_all
    · rintro ⟨hLen, hw⟩
      cases w with
      | nil => exact ⟨[], .inl rfl, [], ih.2 (by simp), rfl⟩
      | cons c w =>
        refine ⟨[c], .inr ⟨c, hw c (by simp), rfl⟩, w, ih.2 ⟨?_, ?_⟩, rfl⟩
        · simpa using hLen
        · intro d hd
          exact hw d (by simp [hd])

/-- As many letters as the bounds allow. -/
theorem mem_between {lo hi : Nat} (hle : lo ≤ hi) :
    w ∈ (between cs lo hi).matches' ↔
      (lo ≤ w.length ∧ w.length ≤ hi) ∧ ∀ c ∈ w, c ∈ cs := by
  rw [between, matches'_mul, Language.mem_mul]
  simp only [mem_cls_pow, mem_opt_cls_pow]
  constructor
  · rintro ⟨a, ⟨ha, haAll⟩, b, ⟨hb, hbAll⟩, rfl⟩
    refine ⟨by simp; omega, ?_⟩
    intro c hc
    rcases List.mem_append.1 hc with hc | hc
    · exact haAll c hc
    · exact hbAll c hc
  · rintro ⟨⟨hlo, hhi⟩, hAll⟩
    refine ⟨w.take lo, ⟨by simp; omega, ?_⟩, w.drop lo, ⟨by simp; omega, ?_⟩,
      List.take_append_drop lo w⟩
    · intro c hc
      exact hAll c (List.mem_of_mem_take hc)
    · intro c hc
      exact hAll c (List.mem_of_mem_drop hc)

/-! ## The longest match -/

variable [DecidableEq α] {r : RegularExpression α} {s : List α}

/-- No match where no prefix is a word. -/
theorem longest_eq_none (h : ∀ m, s.take m ∉ r.matches') : longest r s = none := by
  simp only [longest]
  rw [if_neg]
  rw [rmatch_iff_matches']
  exact h _

/-- A matched prefix that no longer prefix extends. -/
theorem longest_eq_some {rest : List α} (hw : w ∈ r.matches')
    (hMax : ∀ v, v ≠ [] → v <+: rest → w ++ v ∉ r.matches') :
    longest r (w ++ rest) = some w.length := by
  have hFind : Nat.findGreatest (fun n => r.rmatch ((w ++ rest).take n) = true)
      (w ++ rest).length = w.length := by
    rw [Nat.findGreatest_eq_iff]
    refine ⟨by simp, fun _ => by simpa using hw, ?_⟩
    intro n hlt hle hm
    rw [rmatch_iff_matches', List.take_append, List.take_of_length_le hlt.le] at hm
    refine hMax _ ?_ (List.take_prefix _ _) hm
    intro hNil
    have hLen := congrArg List.length hNil
    rw [List.length_append] at hle
    rw [List.length_take, List.length_nil] at hLen
    omega
  simp only [longest, hFind]
  rw [if_pos]
  simpa using hw

/-- A text that starts as no word of `r` does. -/
theorem longest_eq_none_of_head {first : List α} {c : α} {cs : List α}
    (hHead : ∀ w ∈ r.matches', ∃ d ∈ first, w.head? = some d) (hc : c ∉ first) :
    longest r (c :: cs) = none := by
  refine longest_eq_none fun m hm => ?_
  obtain ⟨d, hd, hEq⟩ := hHead _ hm
  cases m with
  | zero => simp at hEq
  | succ m =>
    rw [List.take_succ_cons, List.head?_cons, Option.some.injEq] at hEq
    exact hc (hEq ▸ hd)

/-- The match ends where the letters of `r` end. -/
theorem longest_of_delimited (rest : List α) {letters : List α} (hw : w ∈ r.matches')
    (hLetters : ∀ v ∈ r.matches', ∀ c ∈ v, c ∈ letters)
    (hRest : ∀ c, rest.head? = some c → c ∉ letters) :
    longest r (w ++ rest) = some w.length := by
  refine longest_eq_some hw fun v hNe hPre hv => ?_
  obtain ⟨c, v, rfl⟩ := List.exists_cons_of_ne_nil hNe
  obtain ⟨tail, rfl⟩ := hPre
  exact hRest c rfl (hLetters _ hv c (by simp))

/-- A fixed text in front is found. -/
theorem longest_lit (w rest : List α) : longest (lit w) (w ++ rest) = some w.length := by
  refine longest_eq_some (mem_lit.2 rfl) fun v hNe _ hv => hNe ?_
  simpa using mem_lit.1 hv

/-- What is reported is a match. -/
theorem longest_spec {n : Nat} (h : longest r s = some n) :
    n ≤ s.length ∧ s.take n ∈ r.matches' := by
  simp only [longest] at h
  split at h
  case isTrue hm =>
    cases h
    exact ⟨Nat.findGreatest_le _, (rmatch_iff_matches' _ _).1 hm⟩
  case isFalse => cases h

end Regex

end Riscv32.Data
