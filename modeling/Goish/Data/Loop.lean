/-! `forRange lo hi s f` is `for i in lo..hi { s = f(i, s) }`. -/

namespace Loop

def forRange (lo hi : Nat) (s : σ) (f : Nat → σ → σ) : σ :=
  go (hi - lo) lo s
where
  go (fuel : Nat) (i : Nat) (s : σ) : σ :=
    match fuel with
    | 0 => s
    | fuel + 1 => go fuel (i + 1) (f i s)

namespace forRange

theorem go_induct (f : Nat → σ → σ) (motive : Nat → σ → Prop) (hi : Nat)
    (hstep : ∀ (i : Nat) (s : σ), i < hi → motive i s → motive (i + 1) (f i s))
    : ∀ (fuel i : Nat) (s : σ), i + fuel ≤ hi → motive i s → motive (i + fuel) (go f fuel i s) := by
  intro fuel
  induction fuel with
  | zero =>
    intro i s _ h
    simpa [go] using h
  | succ fuel ih =>
    intro i s _ h
    unfold go
    have := ih (i + 1) (f i s) (by omega) (hstep i s (by omega) h)
    rw [show i + (fuel + 1) = i + 1 + fuel by omega]
    exact this

end forRange

-- The invariant rule.
theorem forRange_induct (motive : Nat → σ → Prop) (hle : lo ≤ hi) (hinit : motive lo s)
    (hstep : ∀ (i : Nat) (s : σ), lo ≤ i → i < hi → motive i s → motive (i + 1) (f i s))
    : motive hi (forRange lo hi s f) := by
  unfold forRange
  have := forRange.go_induct f (fun i s => lo ≤ i ∧ motive i s) hi
    (fun i s hi h => ⟨by omega, hstep i s h.1 hi h.2⟩) (hi - lo) lo s (by omega) ⟨by omega, hinit⟩
  rw [show lo + (hi - lo) = hi by omega] at this
  exact this.2

theorem forRange_fill (get : σ → Nat → β) (hle : lo ≤ hi)
    (hstep : ∀ i s, lo ≤ i → i < hi → get (f i s) j = if j = i then v else get s j)
    : get (forRange lo hi s f) j = if lo ≤ j ∧ j < hi then v else get s j := by
  apply forRange_induct (fun i t => get t j = if lo ≤ j ∧ j < i then v else get s j) hle
  . rw [if_neg (by omega)]
  intro i t hlo hhi ih
  rw [hstep i t hlo hhi, ih]
  grind

end Loop
