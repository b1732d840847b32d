import Riscv32.Klib.Format
import Mathlib.Data.List.TakeWhile

/-!
# Where the scan of a format string ends

The switch of `vsprintf` steps over its conversion character without looking at
it.  When the string ends inside a directive that character is the terminating
NUL, and the scan goes on behind it.

`Complete` describes the strings that do not end so: literals and directives, one
constructor for each.  `scan_complete` is an induction over it;
`scan_incomplete` one over the string, for the strings that are not complete.

`vsprintf_stops_iff` puts the two together, for every string and every argument
list.
-/

namespace Riscv32.Klib

/-- Literals and directives that have their conversion character; the flag is
one of the digits. -/
inductive Complete : List Char → Prop
  | nil : Complete []
  | literal {c : Char} {fmt : List Char} : c ≠ '%' → Complete fmt → Complete (c :: fmt)
  | directive {ds : List Char} {conv : Char} {fmt : List Char} :
      (∀ c ∈ ds, isWidthDigit c = true) → isWidthDigit conv = false → Complete fmt →
        Complete ('%' :: (ds ++ conv :: fmt))

/-- A string is a run of digits and what follows it. -/
theorem digits_split (fmt : List Char) :
    ∃ ds rest, fmt = ds ++ rest ∧ (∀ c ∈ ds, isWidthDigit c = true) ∧
      ∀ c ∈ rest.head?, isWidthDigit c = false := by
  refine ⟨fmt.takeWhile isWidthDigit, fmt.dropWhile isWidthDigit,
    List.takeWhile_append_dropWhile.symm, fun c hc => List.mem_takeWhile_imp hc, fun c hc => ?_⟩
  have hHead := List.head?_dropWhile_not isWidthDigit fmt
  rw [Option.mem_def.1 hc] at hHead
  simpa using hHead

theorem nul_not_digit : isWidthDigit '\x00' = false := by decide

/-- A complete string is read to its NUL. -/
theorem scan_complete {fmt : List Char} (h : Complete fmt) (hNul : '\x00' ∉ fmt) (ap : VaList)
    (out : List Char) :
    ∃ r, scan ap out (fmt ++ ['\x00']) = some r ∧ r.fmt = ['\x00'] := by
  induction h generalizing ap out with
  | nil => exact ⟨_, scan_nul ap out [], rfl⟩
  | @literal c fmt hPercent _ ih =>
      obtain ⟨hc, hFmt⟩ := not_or.1 (mt List.mem_cons.2 hNul)
      rw [List.cons_append, scan_literal ap out _ (Ne.symm hc) hPercent]
      exact ih hFmt ap _
  | @directive ds conv fmt hds hConv _ ih =>
      obtain ⟨text, ap', hStep⟩ := directive_complete hds hConv ap (fmt ++ ['\x00'])
      have hFmt : '\x00' ∉ fmt := fun hMem => hNul (by simp [hMem])
      rw [List.cons_append, List.append_assoc, List.cons_append, scan_directive, hStep]
      exact ih hFmt ap' _

/-- Another string is read past its NUL. -/
theorem scan_incomplete {fmt : List Char} (h : ¬ Complete fmt) (hNul : '\x00' ∉ fmt)
    (ap : VaList) (out : List Char) : scan ap out (fmt ++ ['\x00']) = none := by
  induction hLength : fmt.length using Nat.strong_induction_on generalizing fmt ap out with
  | _ n ih =>
      cases fmt with
      | nil => exact absurd Complete.nil h
      | cons c fmt =>
          obtain ⟨hc, hFmt⟩ := not_or.1 (mt List.mem_cons.2 hNul)
          rw [List.length_cons] at hLength
          by_cases hPercent : c = '%'
          · subst hPercent
            obtain ⟨ds, rest, rfl, hds, hHead⟩ := digits_split fmt
            rw [List.cons_append, List.append_assoc, scan_directive]
            cases rest with
            | nil =>
                -- The conversion character is the NUL.
                obtain ⟨text, ap', hStep⟩ := directive_complete hds nul_not_digit ap []
                rw [List.nil_append, hStep, Option.bind_some, scan]
            | cons conv rest =>
                have hConv := hHead conv rfl
                obtain ⟨text, ap', hStep⟩ := directive_complete hds hConv ap (rest ++ ['\x00'])
                have hRest : ¬ Complete rest := fun hRest => h (Complete.directive hds hConv hRest)
                have hShort : rest.length < n := by
                  simp only [List.length_append, List.length_cons] at hLength
                  omega
                rw [List.cons_append, hStep]
                exact ih rest.length hShort hRest (fun hMem => hFmt (by simp [hMem])) ap' _ rfl
          · have hRest : ¬ Complete fmt := fun hRest => h (Complete.literal hPercent hRest)
            rw [List.cons_append, scan_literal ap out _ (Ne.symm hc) hPercent]
            exact ih fmt.length (by omega) hRest hFmt ap _ rfl

/-- **The scan stops at the NUL of the strings that do not end inside a
directive**, and of no other. -/
theorem vsprintf_stops_iff (fmt : List Char) (hNul : '\x00' ∉ fmt) (ap : VaList) :
    (∃ r, vsprintf fmt ap = some r ∧ r.fmt = ['\x00']) ↔ Complete fmt := by
  refine ⟨fun ⟨r, hRun, _⟩ => ?_, fun h => scan_complete h hNul ap []⟩
  by_contra h
  rw [vsprintf, scan_incomplete h hNul ap []] at hRun
  cases hRun

/-- `100%d` has its conversion character. -/
theorem vsprintf_stops_number :
    ∃ r, vsprintf ['1', '0', '0', '%', 'd'] ⟨fun _ => 5#32, fun _ => []⟩ = some r ∧
      r.fmt = ['\x00'] := by
  refine (vsprintf_stops_iff _ (by decide) _).2 ?_
  refine .literal (by decide) (.literal (by decide) (.literal (by decide) ?_))
  exact @Complete.directive [] 'd' [] (by simp) (by decide) Complete.nil

/-- `100%` is read past its NUL. -/
theorem vsprintf_overruns :
    ¬ ∀ ap, ∃ r, vsprintf ['1', '0', '0', '%'] ap = some r ∧ r.fmt = ['\x00'] := by
  intro h
  obtain ⟨r, hRun, -⟩ := h ⟨fun _ => 0#32, fun _ => []⟩
  simp [vsprintf, scan_literal, scan_directive, directive, readPadding, readWidth, nul_not_digit,
    convert, scan] at hRun

end Riscv32.Klib
