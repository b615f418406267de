import Goish.Regexp.Lemmas.Paths

/-! The captures against those of the highest-priority path, and the leftmost match. -/

open List

namespace Regexp

variable {re : Regexp} {text : List UInt8} {pos : Nat} {caps : Caps}

theorem captures_priority (re : Regexp) (hpos : pos ≤ text.length)
    : matchAt re text pos = (spans .exact re text pos).head?.map (Prod.map id stored) ∧
        (text.length < 2 ^ 31 → ∀ x ∈ spans .exact re text pos, stored x.2 = x.2) := by
  refine ⟨matchAt_stored re hpos, fun hlen => ?_⟩
  intro x hx
  obtain ⟨_, hmarks⟩ := spans_marks (P := (· ≤ text.length)) (fun {l _ _} h hs => (l.step_bounds h hs).2) hpos x hx
  have hsmall {i : ℤ} (h : Marks (· ≤ text.length) i) : i.bmod (2 ^ 32) = i := by
    rcases h with rfl | ⟨p, hp, rfl⟩
    . rfl
    . exact Int.bmod_eq_of_le (by omega) (by omega)
  conv_rhs => rw [← map_id x.2]
  refine map_congr_left fun c hc => ?_
  rw [hsmall (hmarks c hc).1, hsmall (hmarks c hc).2]
  rfl

/-- The pattern `(a*)+`. -/
def starPlus : Regexp :=
  ⟨.repeats (.group 1 (.repeats (.leaf (.literal 0x61)) 0 usizeMax (by decide) true)) 1 usizeMax (by decide) true, 1, []⟩

theorem captures_priority_empty : matchAt starPlus [0x62] 0 = some (0, [(0, 0), (-1, -1)]) :=
  (captures_priority _ (by decide)).1.trans (by decide +kernel)

theorem captures_unset : matchAt starPlus [0x62] 0 ≠ (spans .doc starPlus [0x62] 0).head? := by
  decide +kernel

def ways (re : Regexp) (text : List UInt8) (pos : Nat) : List (Nat × Caps) :=
  re.root.paths .code text pos ((unset re).set 0 (asI32 pos, -1))

theorem findFrom_leftmost (re : Regexp) (text : List UInt8) (start : Nat)
    : match findFrom re text start with
      | none => ∀ p, start ≤ p → p ≤ text.length → ways re text p = []
      | some (lo, hi, caps) =>
        start ≤ lo ∧ lo ≤ hi ∧ hi ≤ text.length ∧ (∀ p, start ≤ p → p < lo → ways re text p = []) ∧
          ∃ caps', (ways re text lo).head? = some (hi, caps') ∧ caps = caps'.set 0 (asI32 lo, asI32 hi) := by
  have hnil : ∀ p, p ≤ text.length → matchAt re text p = none → ways re text p = [] := by
    intro p hp h
    rwa [matchAt_eq re hp, Option.map_eq_none_iff, head?_eq_none_iff] at h
  split
  . next h => exact fun p hp hlen => hnil p hlen (findFrom_eq_none h p hp hlen)
  . next h =>
    obtain ⟨hstart, hlen, hmatch, hbefore⟩ := findFrom_eq_some h
    rw [matchAt_eq re hlen, Option.map_eq_some_iff] at hmatch
    obtain ⟨⟨_, caps'⟩, hhead, heq⟩ := hmatch
    cases heq
    obtain ⟨hle, hhi⟩ := re.root.paths_bounds _ hlen _ (mem_of_mem_head? hhead)
    exact ⟨hstart, hle, hhi, fun p hp hlt => hnil p (by omega) (hbefore p hp hlt), caps', hhead, rfl⟩

end Regexp
