/-! The theory of runs of free cells in a sequence `free : Nat → Bool`. -/

namespace FreeRun

def Run (free : Nat → Bool) (a n : Nat) : Prop :=
  ∀ (i : Nat), a ≤ i → i < a + n → free i = true

@[ext]
structure Summary where
  start : Nat
  most : Nat
  last : Nat
  deriving DecidableEq, Repr

def Summary.append (s : Summary) (n : Nat) (t : Summary) (m : Nat) : Summary :=
  {
    start := if s.start = n then s.start + t.start else s.start
    most := max (max s.most t.most) (s.last + t.start)
    last := if t.last = m then s.last + m else t.last
  }

structure IsSummary (free : Nat → Bool) (a n : Nat) (s : Summary) : Prop where
  start_le : s.start ≤ n
  start_run : Run free a s.start
  start_stop : s.start < n → free (a + s.start) = false
  last_le : s.last ≤ n
  last_run : Run free (a + n - s.last) s.last
  last_stop : s.last < n → free (a + n - s.last - 1) = false
  most_run : ∃ (x : Nat), a ≤ x ∧ x + s.most ≤ a + n ∧ Run free x s.most
  most_max : ∀ (x k : Nat), a ≤ x → x + k ≤ a + n → Run free x k → k ≤ s.most

def summaryOf (free : Nat → Bool) (a : Nat) : Nat → Summary
  | 0 => ⟨0, 0, 0⟩
  | n + 1 =>
    let s := summaryOf free a n
    if free (a + n) then
      ⟨if s.start = n then n + 1 else s.start, max s.most (s.last + 1), s.last + 1⟩
    else
      ⟨s.start, s.most, 0⟩

section Run

variable {free free' : Nat → Bool}

theorem Run.mono (h : Run free a n) (ha : a ≤ b) (hb : b + m ≤ a + n) : Run free b m := by
  intro _ _ _
  apply h <;> omega

theorem Run.append (h1 : Run free a n) (h2 : Run free (a + n) m) : Run free a (n + m) := by
  intro i hi1 _
  by_cases hi : i < a + n
  . exact h1 i hi1 hi
  . exact h2 i (by omega) (by omega)

theorem Run.zero : Run free a 0 := by
  intro _ _ _
  omega

theorem Run.shift (h : Run free a n) (hf : ∀ i, a ≤ i → i < a + n → free' (i + d) = free i) : Run free' (a + d) n := by
  intro i _ _
  have := hf (i - d) (by omega) (by omega)
  rw [show i - d + d = i by omega] at this
  rw [this]
  apply h <;> omega

theorem Run.le_of_stop (h : Run free x k) (hb : free b = false) (hx : x ≤ b) : x + k ≤ b := by
  by_cases hlt : x + k ≤ b
  . exact hlt
  . rw [h b hx (by omega)] at hb
    contradiction

end Run

namespace IsSummary

variable {free free' : Nat → Bool}

theorem shift (d : Nat) (h : IsSummary free a n s)
    (hf : ∀ i, a ≤ i → i < a + n → free' (i + d) = free i) : IsSummary free' (a + d) n s where
  start_le := h.start_le
  start_run := h.start_run.shift (by
    intro _ _ _
    have := h.start_le
    apply hf <;> omega)
  start_stop := by
    intro hlt
    rw [Nat.add_right_comm, hf _ (by omega) (by omega)]
    exact h.start_stop hlt
  last_le := h.last_le
  last_run := by
    have hle := h.last_le
    rw [show a + d + n - s.last = a + n - s.last + d by omega]
    apply h.last_run.shift
    intro _ _ _
    apply hf <;> omega
  last_stop := by
    intro hlt
    rw [show a + d + n - s.last - 1 = a + n - s.last - 1 + d by omega, hf _ (by omega) (by omega)]
    exact h.last_stop hlt
  most_run := by
    obtain ⟨x, _, _, h3⟩ := h.most_run
    refine ⟨x + d, by omega, by omega, h3.shift ?_⟩
    intro _ _ _
    apply hf <;> omega
  most_max := by
    intro x k _ _ h3
    apply h.most_max (x - d) k (by omega) (by omega)
    intro i _ _
    rw [← hf i (by omega) (by omega)]
    apply h3 <;> omega

theorem start_eq (h : IsSummary free a n s) (hle : k ≤ n) (hr : Run free a k)
    (hstop : k < n → free (a + k) = false) : s.start = k := by
  have := h.start_le
  rcases Nat.lt_trichotomy s.start k with _ | heq | _
  . have := hr.le_of_stop (h.start_stop (by omega)) (by omega)
    omega
  . exact heq
  . have := h.start_run.le_of_stop (hstop (by omega)) (by omega)
    omega

theorem last_eq (h : IsSummary free a n s) (hle : k ≤ n) (hr : Run free (a + n - k) k)
    (hstop : k < n → free (a + n - k - 1) = false) : s.last = k := by
  have := h.last_le
  rcases Nat.lt_trichotomy s.last k with _ | heq | _
  . have := h.last_stop (by omega)
    rw [hr _ (by omega) (by omega)] at this
    contradiction
  . exact heq
  . have := hstop (by omega)
    rw [h.last_run _ (by omega) (by omega)] at this
    contradiction

theorem unique (h1 : IsSummary free a n s) (h2 : IsSummary free a n t) : s = t := by
  apply Summary.ext
  . exact h1.start_eq h2.start_le h2.start_run h2.start_stop
  . obtain ⟨x, hx1, hx2, hx3⟩ := h1.most_run
    obtain ⟨y, hy1, hy2, hy3⟩ := h2.most_run
    apply Nat.le_antisymm
    . exact h2.most_max x _ hx1 hx2 hx3
    . exact h1.most_max y _ hy1 hy2 hy3
  . exact h1.last_eq h2.last_le h2.last_run h2.last_stop

section Summary

variable (h : IsSummary free a n s)
include h

theorem start_le_most : s.start ≤ s.most :=
  h.most_max a _ (by omega) (by have := h.start_le; omega) h.start_run

theorem last_le_most : s.last ≤ s.most :=
  h.most_max _ _ (by have := h.last_le; omega) (by have := h.last_le; omega) h.last_run

theorem most_le : s.most ≤ n := by
  obtain ⟨x, h1, h2, h3⟩ := h.most_run
  omega

theorem run_of_start_eq (heq : s.start = n) : Run free a n := by
  have := h.start_run
  rwa [heq] at this

theorem run_of_last_eq (heq : s.last = n) : Run free a n := by
  have := h.last_run
  rw [heq] at this
  rwa [show a + n - n = a by omega] at this

theorem run_of_most_eq (heq : s.most = n) : Run free a n := by
  obtain ⟨x, _, h2, h3⟩ := h.most_run
  rw [heq] at h2 h3
  rwa [show x = a by omega] at h3

end Summary

theorem of_run (hr : Run free a n) : IsSummary free a n ⟨n, n, n⟩ where
  start_le := by simp
  start_run := hr
  start_stop := by simp
  last_le := by simp
  last_run := by simpa using hr
  last_stop := by simp
  most_run := ⟨a, by omega, by simp, hr⟩
  most_max := by
    intro _ _ _ _ _
    dsimp only
    omega

theorem eq_of_run (h : IsSummary free a n s) (hr : Run free a n) : s = ⟨n, n, n⟩ :=
  h.unique (of_run hr)

theorem empty (hf : ∀ i, a ≤ i → i < a + n → free i = false) : IsSummary free a n ⟨0, 0, 0⟩ where
  start_le := by simp
  start_run := Run.zero
  start_stop := by
    intro h
    apply hf <;> omega
  last_le := by simp
  last_run := Run.zero
  last_stop := by
    intro h
    apply hf <;> omega
  most_run := ⟨a, by omega, by simp, Run.zero⟩
  most_max := by
    intro x k h1 _ hr
    by_cases hk : k = 0
    . simp [hk]
    . have := hf x h1 (by omega)
      rw [hr x (by omega) (by omega)] at this
      contradiction

theorem append (h1 : IsSummary free a n s) (h2 : IsSummary free (a + n) m t)
    : IsSummary free a (n + m) (s.append n t m) where
  start_le := by
    have := h1.start_le
    have := h2.start_le
    simp only [Summary.append]
    split <;> omega
  start_run := by
    simp only [Summary.append]
    split
    . next heq =>
      rw [heq]
      exact (h1.run_of_start_eq heq).append h2.start_run
    . exact h1.start_run
  start_stop := by
    have := h1.start_le
    simp only [Summary.append]
    split
    . next heq =>
      intro _
      rw [heq, ← Nat.add_assoc]
      exact h2.start_stop (by omega)
    . intro _
      exact h1.start_stop (by omega)
  last_le := by
    have := h1.last_le
    have := h2.last_le
    simp only [Summary.append]
    split <;> omega
  last_run := by
    have := h1.last_le
    simp only [Summary.append]
    split
    . next heq =>
      have hr := h1.last_run.append (m := m) (by
        rw [show a + n - s.last + s.last = a + n by omega]
        exact h2.run_of_last_eq heq)
      rwa [show a + (n + m) - (s.last + m) = a + n - s.last by omega]
    . rw [← Nat.add_assoc]
      exact h2.last_run
  last_stop := by
    have := h2.last_le
    simp only [Summary.append]
    split
    . intro _
      rw [show a + (n + m) - (s.last + m) - 1 = a + n - s.last - 1 by omega]
      exact h1.last_stop (by omega)
    . intro _
      rw [← Nat.add_assoc]
      exact h2.last_stop (by omega)
  most_run := by
    have hl := h1.last_le
    have hs := h2.start_le
    obtain ⟨x, _, _, hx3⟩ := h1.most_run
    obtain ⟨y, _, _, hy3⟩ := h2.most_run
    have hz : Run free (a + n - s.last) (s.last + t.start) := by
      apply h1.last_run.append
      rw [show a + n - s.last + s.last = a + n by omega]
      exact h2.start_run
    simp only [Summary.append]
    rcases Nat.le_total (max s.most t.most) (s.last + t.start) with hle | hle
    . rw [Nat.max_eq_right hle]
      exact ⟨_, by omega, by omega, hz⟩
    rw [Nat.max_eq_left hle]
    rcases Nat.le_total s.most t.most with hle | hle
    . rw [Nat.max_eq_right hle]
      exact ⟨y, by omega, by omega, hy3⟩
    . rw [Nat.max_eq_left hle]
      exact ⟨x, by omega, by omega, hx3⟩
  most_max := by
    intro x k hx1 _ hr
    simp only [Summary.append]
    by_cases hleft : x + k ≤ a + n
    . have := h1.most_max x k hx1 hleft hr
      omega
    by_cases hright : a + n ≤ x
    . have := h2.most_max x k hright (by omega) hr
      omega
    -- The run crosses the boundary, so it is inside the end of the left and the start of the
    -- right region.
    . have hlo : a + n - s.last ≤ x := by
        by_cases hlt : s.last < n
        . have hstop := h1.last_stop hlt
          by_cases hle : x ≤ a + n - s.last - 1
          . have := hr.le_of_stop hstop hle
            omega
          . omega
        . omega
      have hhi : x + k ≤ a + n + t.start := by
        by_cases hlt : t.start < m
        . exact hr.le_of_stop (h2.start_stop hlt) (by omega)
        . omega
      omega

end IsSummary

theorem summaryOf_isSummary (free : Nat → Bool) (a n : Nat) : IsSummary free a n (summaryOf free a n) := by
  induction n with
  | zero =>
    apply IsSummary.empty
    intros
    omega
  | succ n ih =>
    have hone : ∀ i, a + n ≤ i → i < a + n + 1 → free i = free (a + n) := by
      intro i _ _
      rw [show i = a + n by omega]
    unfold summaryOf
    generalize summaryOf free a n = s at *
    dsimp only
    split
    . next hfree =>
      have happend := ih.append (.of_run (n := 1) fun i h1 h2 => (hone i h1 h2).trans hfree)
      rwa [show s.append n ⟨1, 1, 1⟩ 1 = ⟨if s.start = n then n + 1 else s.start, max s.most (s.last + 1), s.last + 1⟩ by
        ext <;> simp only [Summary.append] <;> grind] at happend
    next hfree =>
    have happend := ih.append (.empty (n := 1) fun i h1 h2 => (hone i h1 h2).trans (Bool.eq_false_iff.mpr hfree))
    have := ih.last_le_most
    rwa [show s.append n ⟨0, 0, 0⟩ 1 = ⟨s.start, s.most, 0⟩ by
      ext <;> simp only [Summary.append] <;> grind] at happend

theorem IsSummary.eq_summaryOf (h : IsSummary free a n s) : s = summaryOf free a n :=
  h.unique (summaryOf_isSummary free a n)

def FirstFit (free : Nat → Bool) (lo hi n : Nat) : Option Nat → Prop
  | none => ∀ (x : Nat), lo ≤ x → x + n ≤ hi → ¬ Run free x n
  | some r => lo ≤ r ∧ r + n ≤ hi ∧ Run free r n ∧ ∀ (x : Nat), lo ≤ x → x < r → ¬ Run free x n

theorem FirstFit.shift (d : Nat) (h : FirstFit free lo hi n (some r))
    (hf : ∀ i, lo ≤ i → i < hi → free' (i + d) = free i) : FirstFit free' (lo + d) (hi + d) n (some (r + d)) := by
  obtain ⟨_, _, h3, h4⟩ := h
  refine ⟨by omega, by omega, ?_, ?_⟩
  . apply h3.shift
    intro _ _ _
    apply hf <;> omega
  intro x _ _ hr
  apply h4 (x - d) (by omega) (by omega)
  intro i _ _
  rw [← hf i (by omega) (by omega)]
  apply hr <;> omega

structure Window (free : Nat → Bool) (lo m n size : Nat) : Prop where
  none : ∀ (x : Nat), lo ≤ x → x + n ≤ m → ¬ Run free x n
  le : lo + size ≤ m
  run : Run free (m - size) size
  stop : lo + size < m → free (m - size - 1) = false

namespace Window

variable {free : Nat → Bool} {lo m n size : Nat}

theorem init (hn : 0 < n) : Window free lo lo n 0 where
  none := by
    intro _ _ _
    omega
  le := by simp
  run := Run.zero
  stop := by
    intro h
    omega

variable (hw : Window free lo m n size)
include hw

theorem crosses (hr : Run free x n) (hx : lo ≤ x) : m < x + n ∧ m - size ≤ x := by
  rcases Nat.lt_or_ge m (x + n) with hlt | hge
  . refine ⟨hlt, Nat.le_of_not_lt ?_⟩
    intro _
    have := hr.le_of_stop (hw.stop (by omega)) (by omega)
    omega
  . exact absurd hr (hw.none x hx hge)

theorem size_lt : size < n := by
  have hle := hw.le
  rcases Nat.lt_or_ge size n with hlt | _
  . exact hlt
  . have := hw.none (m - size) (by omega) (by omega) (hw.run.mono (by omega) (by omega))
    contradiction

theorem firstFit_of_empty (h0 : size = 0) (hhi : hi' ≤ hi) (hfit : FirstFit free m hi' n (some r))
    : FirstFit free lo hi n (some r) := by
  have hle := hw.le
  obtain ⟨_, _, h3, h4⟩ := hfit
  refine ⟨by omega, by omega, h3, ?_⟩
  intro x hx1 hx2 hr
  have := hw.crosses hr hx1
  exact h4 x (by omega) hx2 hr

variable (hs : IsSummary free m len s)
include hs

theorem firstFit_straddle (hfit : n ≤ size + s.start) (hhi : m + s.start ≤ hi)
    : FirstFit free lo hi n (some (m - size)) := by
  have hle := hw.le
  refine ⟨by omega, by omega, ?_, ?_⟩
  . have hrun : Run free (m - size) (size + s.start) := by
      apply hw.run.append
      rw [show m - size + size = m by omega]
      exact hs.start_run
    exact hrun.mono (by omega) (by omega)
  . intro x h1 _ hr
    have := hw.crosses hr h1
    omega

theorem none_before (hno : size + s.start < n) (hmost : n ≤ s.most) : ∀ (x : Nat), lo ≤ x → x < m → ¬ Run free x n := by
  intro x h1 _ hr
  have hle := hs.most_le
  have hcross := hw.crosses hr h1
  have hstart : s.start < len := by
    apply Nat.lt_of_le_of_ne hs.start_le
    intro _
    omega
  have := hr.le_of_stop (hs.start_stop hstart) (by omega)
  omega

theorem firstFit_descend (hno : size + s.start < n) (hmost : n ≤ s.most) (hhi : m + len ≤ hi)
    (hfit : FirstFit free m (m + len) n r) : FirstFit free lo hi n r := by
  have hle := hw.le
  cases r with
  | none =>
    obtain ⟨y, hy1, _, hy3⟩ := hs.most_run
    exact absurd (hy3.mono (by omega) (by omega)) (hfit y hy1 (by omega))
  | some =>
    obtain ⟨_, _, h3, h4⟩ := hfit
    refine ⟨by omega, by omega, h3, ?_⟩
    intro x hx1 hx2
    rcases Nat.lt_or_ge x m with hlt | hge
    . exact hw.none_before hs hno hmost x hx1 hlt
    . exact h4 x hge hx2

theorem extend (hno : size + s.start < n) (hmost : s.most < n)
    : Window free lo (m + len) n (if s.start = len then size + len else s.last) where
  none := by
    intro x h1 h2 hr
    rcases Nat.lt_or_ge x m with _ | hge
    . have hcross := hw.crosses hr h1
      rcases Nat.lt_or_ge s.start len with hstart | _
      . have := hr.le_of_stop (hs.start_stop hstart) (by omega)
        omega
      . omega
    . have := hs.most_max x n hge h2 hr
      omega
  le := by
    have := hw.le
    have := hs.last_le
    split <;> omega
  run := by
    have hle := hw.le
    split
    . next heq =>
      rw [show m + len - (size + len) = m - size by omega]
      apply hw.run.append
      rw [show m - size + size = m by omega]
      exact hs.run_of_start_eq heq
    . exact hs.last_run
  stop := by
    split
    . intro h
      rw [show m + len - (size + len) - 1 = m - size - 1 by omega]
      exact hw.stop (by omega)
    next hne =>
    intro _
    have hlast : s.last < len := by
      apply Nat.lt_of_le_of_ne hs.last_le
      intro heq
      apply hne
      have := hs.eq_of_run (hs.run_of_last_eq heq)
      rw [this]
    exact hs.last_stop hlast

end Window

end FreeRun
