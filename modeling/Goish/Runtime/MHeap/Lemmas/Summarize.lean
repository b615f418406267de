import Goish.Runtime.MHeap.Lemmas.InnerRuns
import Goish.Runtime.MHeap.Lemmas.PallocSum

open List Word Loop FreeRun

namespace MHeap

namespace PallocBits

def isFree (b : PallocBits) (i : Nat) : Bool :=
  !b.bits.get i

namespace summarize

def Words (free : Nat → Bool) (k : Nat) (ws : List (BitVec 64)) : Prop :=
  ∀ (j t : Nat) (hj : j < ws.length), t < 64 → free (64 * (k + j) + t) = !ws[j].getLsbD t

def InWord (free : Nat → Bool) (x k : Nat) : Prop :=
  ∃ (p q : Nat), p < x ∧ x + k ≤ q ∧ p / 64 = q / 64 ∧ free p = false ∧ free q = false

theorem InWord.le {free : Nat → Bool} (h : InWord free x k) : k ≤ 62 := by
  obtain ⟨p, q, h1, h2, h3, _⟩ := h
  omega

structure SeenUsed (free : Nat → Bool) (n start most cur : Nat) : Prop where
  start_lt : start < n
  start_run : Run free 0 start
  start_stop : free start = false
  cur_lt : cur < n
  cur_run : Run free (n - cur) cur
  cur_stop : free (n - cur - 1) = false
  most_run : ∃ (x : Nat), x + most ≤ n ∧ Run free x most
  most_max : ∀ (x k : Nat), x + k ≤ n → Run free x k → k ≤ max most cur ∨ InWord free x k

def FirstPassInv (free : Nat → Bool) (n : Nat) (st : FirstPass) : Prop :=
  match st.start with
  | none => Run free 0 n ∧ st.most = 0 ∧ st.cur = n
  | some start => SeenUsed free n start st.most st.cur

section Word

variable {free : Nat → Bool} {x : BitVec 64} (hx : ∀ t, t < 64 → free (64 * k + t) = !x.getLsbD t)
include hx

theorem run_of_word_zero (h0 : x = 0#64) : Run free (64 * k) 64 := by
  intro i _ _
  have := hx (i - 64 * k) (by omega)
  rw [show 64 * k + (i - 64 * k) = i by omega, h0] at this
  simpa using this

theorem run_trailingZeros : Run free (64 * k) (trailingZeros x) := by
  intro i _ _
  have hle := trailingZeros_le (x := x)
  have := hx (i - 64 * k) (by omega)
  rw [show 64 * k + (i - 64 * k) = i by omega, getLsbD_of_lt_trailingZeros (by omega)] at this
  simpa using this

theorem free_trailingZeros (h0 : x ≠ 0#64) : free (64 * k + trailingZeros x) = false := by
  rw [hx _ (trailingZeros_lt h0), getLsbD_trailingZeros h0]
  rfl

theorem run_leadingZeros : Run free (64 * k + 64 - leadingZeros x) (leadingZeros x) := by
  intro i _ _
  have hle := leadingZeros_le (x := x)
  have := hx (i - 64 * k) (by omega)
  rw [show 64 * k + (i - 64 * k) = i by omega, getLsbD_of_leadingZeros (by omega)] at this
  simpa using this

theorem free_leadingZeros (h0 : x ≠ 0#64) : free (64 * k + 64 - leadingZeros x - 1) = false := by
  have hlt := leadingZeros_lt h0
  have := hx (64 - 1 - leadingZeros x) (by omega)
  rw [getLsbD_leadingZeros (by omega) h0] at this
  rwa [show 64 * k + 64 - leadingZeros x - 1 = 64 * k + (64 - 1 - leadingZeros x) by omega]

theorem firstPass_zero (h0 : x = 0#64) (hinv : FirstPassInv free (64 * k) st)
    : FirstPassInv free (64 * (k + 1)) (firstPass st x) := by
  have hrun := run_of_word_zero hx h0
  unfold firstPass
  rw [if_pos h0]
  unfold FirstPassInv at hinv ⊢
  cases hs : st.start with
  | none =>
    rw [hs] at hinv
    dsimp only at hinv ⊢
    obtain ⟨h1, h2, _⟩ := hinv
    refine ⟨?_, h2, by omega⟩
    apply Run.append (n := 64 * k) h1
    rwa [zero_add]
  | some =>
    rw [hs] at hinv
    dsimp only at hinv ⊢
    have hcur := hinv.cur_lt
    exact {
      start_lt := by have := hinv.start_lt; omega
      start_run := hinv.start_run
      start_stop := hinv.start_stop
      cur_lt := by omega
      cur_run := by
        rw [show 64 * (k + 1) - (st.cur + 64) = 64 * k - st.cur by omega]
        apply hinv.cur_run.append
        rwa [show 64 * k - st.cur + st.cur = 64 * k by omega]
      cur_stop := by
        rw [show 64 * (k + 1) - (st.cur + 64) - 1 = 64 * k - st.cur - 1 by omega]
        exact hinv.cur_stop
      most_run := by
        obtain ⟨y, _, h2⟩ := hinv.most_run
        exact ⟨y, by omega, h2⟩
      most_max := by
        intro y l _ hr
        rcases lt_or_ge (64 * k) (y + l) with hlt | hle
        . left
          rcases lt_or_ge y (64 * k - st.cur) with _ | _
          . have := hr.le_of_stop hinv.cur_stop (by omega)
            omega
          . omega
        . rcases hinv.most_max y l hle hr with _ | hin
          . exact Or.inl (by omega)
          . exact Or.inr hin
    }

theorem most_max_word (h0 : x ≠ 0#64) (hcur : cur ≤ 64 * k) (hstop : cur < 64 * k → free (64 * k - cur - 1) = false)
    (hmax : ∀ (y l : Nat), y + l ≤ 64 * k → Run free y l → l ≤ max most cur ∨ InWord free y l)
    : ∀ (y l : Nat), y + l ≤ 64 * (k + 1) → Run free y l →
        l ≤ max (max most (cur + trailingZeros x)) (leadingZeros x) ∨ InWord free y l := by
  intro y l hle hr
  have ht := free_trailingZeros hx h0
  have hl := free_leadingZeros hx h0
  rcases lt_or_ge (64 * k) (y + l) with hlt | hle
  . rcases lt_or_ge (64 * k + trailingZeros x) y with hyt | hyt
    . rcases lt_or_ge (64 * k + 64 - leadingZeros x - 1) y with hly | hly
      . exact Or.inl (by omega)
      . right
        have := hr.le_of_stop hl hly
        exact ⟨_, _, hyt, this, by omega, ht, hl⟩
    left
    have hend := hr.le_of_stop ht hyt
    rcases lt_or_ge y (64 * k - cur) with _ | _
    . have := hr.le_of_stop (hstop (by omega)) (by omega)
      omega
    . omega
  . rcases hmax y l hle hr with _ | hin
    . exact Or.inl (by omega)
    . exact Or.inr hin

theorem firstPass_nonzero (h0 : x ≠ 0#64) (hinv : FirstPassInv free (64 * k) st)
    : FirstPassInv free (64 * (k + 1)) (firstPass st x) := by
  have htlt := trailingZeros_lt h0
  have hllt := leadingZeros_lt h0
  have hmax : ∀ (a b : Nat), (if a > b then a else b) = max b a := by
    intro a b
    split <;> omega
  have htrail := run_trailingZeros hx
  have hlead := run_leadingZeros hx
  have hstop := free_leadingZeros hx h0
  unfold firstPass
  rw [if_neg h0]
  unfold FirstPassInv at hinv ⊢
  cases hs : st.start with
  | none =>
    rw [hs] at hinv
    dsimp only at hinv ⊢
    obtain ⟨h1, h2, h3⟩ := hinv
    have hrun : Run free 0 (64 * k + trailingZeros x) := by
      apply h1.append
      rwa [zero_add]
    rw [hmax, h2, h3]
    exact {
      start_lt := by omega
      start_run := hrun
      start_stop := free_trailingZeros hx h0
      cur_lt := by omega
      cur_run := by rwa [Nat.mul_succ]
      cur_stop := by rwa [Nat.mul_succ]
      most_run := ⟨0, by omega, by simpa using hrun⟩
      most_max := by
        apply most_max_word hx h0 le_rfl
        . intro h
          omega
        . intro _ _ _ _
          exact Or.inl (by omega)
    }
  | some =>
    rw [hs] at hinv
    dsimp only at hinv ⊢
    have hcur := hinv.cur_lt
    rw [hmax]
    exact {
      start_lt := by have := hinv.start_lt; omega
      start_run := hinv.start_run
      start_stop := hinv.start_stop
      cur_lt := by omega
      cur_run := by rwa [Nat.mul_succ]
      cur_stop := by rwa [Nat.mul_succ]
      most_run := by
        rcases le_total st.most (st.cur + trailingZeros x) with hle | hle
        . rw [Nat.max_eq_right hle]
          refine ⟨64 * k - st.cur, by omega, ?_⟩
          apply hinv.cur_run.append
          rwa [show 64 * k - st.cur + st.cur = 64 * k by omega]
        . rw [Nat.max_eq_left hle]
          obtain ⟨y, _, h2⟩ := hinv.most_run
          exact ⟨y, by omega, h2⟩
      most_max := by
        apply most_max_word hx h0 hcur.le
        . intro _
          exact hinv.cur_stop
        . exact hinv.most_max
    }

end Word

theorem firstPass_inv {free : Nat → Bool} (ws : List (BitVec 64)) : ∀ (k : Nat) (st : FirstPass),
        Words free k ws → FirstPassInv free (64 * k) st →
        FirstPassInv free (64 * (k + ws.length)) (ws.foldl firstPass st) := by
  induction ws with
  | nil =>
    intro _ _ _ hinv
    simpa using hinv
  | cons x ws ih =>
    intro k st hws hinv
    have hx : ∀ t, t < 64 → free (64 * k + t) = !x.getLsbD t := by
      intro t ht
      have := hws 0 t (by simp) ht
      simpa using this
    have hstep : FirstPassInv free (64 * (k + 1)) (firstPass st x) := by
      cases BitVec.decEq x 0#64 with
      | isTrue h0 => exact firstPass_zero hx h0 hinv
      | isFalse h0 => exact firstPass_nonzero hx h0 hinv
    rw [foldl_cons, length_cons, show k + (ws.length + 1) = k + 1 + ws.length by omega]
    apply ih
    . intro j t hj ht
      have := hws (j + 1) t (by simpa using hj) ht
      simpa [add_assoc, add_comm 1 j] using this
    . exact hstep

theorem Inner.le_62 (h : Inner x y k) : k ≤ 62 := by
  obtain ⟨i, h1, h2⟩ := h.below
  obtain ⟨_, _, h4⟩ := h.above
  have := BitVec.lt_of_getLsbD h4
  omega

theorem secondPass_foldl (ws : List (BitVec 64)) : ∀ (most : Nat), (∀ x ∈ ws, x ≠ 0#64) → most < 64 →
        most ≤ ws.foldl secondPass most ∧
        (ws.foldl secondPass most = most
          ∨ ∃ x ∈ ws, ∃ (y : Nat), Inner x y (ws.foldl secondPass most)) ∧
        ∀ x ∈ ws, ∀ (y l : Nat), Inner x y l → l ≤ ws.foldl secondPass most := by
  induction ws with
  | nil =>
    intro _ _ _
    simp
  | cons x _ ih =>
    intro most hne hmost
    have hx := secondPass_spec x most (hne x (by simp)) hmost
    have hlt : secondPass most x < 64 := by
      rcases hx.run with _ | hex
      . omega
      obtain ⟨_, hin⟩ := hex
      have := hin.le_62
      omega
    obtain ⟨_, h2, h3⟩ := ih (secondPass most x) (fun z hz => hne z (by simp [hz])) hlt
    have hle := hx.le
    rw [foldl_cons]
    refine ⟨by omega, ?_, ?_⟩
    . rcases h2 with heq | hex
      . rw [heq]
        rcases hx.run with heq | hex
        . exact Or.inl heq
        . exact Or.inr ⟨x, by simp, hex⟩
      . obtain ⟨z, hz, hin⟩ := hex
        exact Or.inr ⟨z, by simp [hz], hin⟩
    . intro z hz y l hin
      rcases mem_cons.mp hz with heq | hmem
      . subst heq
        have := hx.max y l hin
        omega
      . exact h3 z hmem y l hin

theorem words_isFree (b : PallocBits) : Words b.isFree 0 b.bits.words.toList := by
  intro j t hj _
  unfold isFree PageBits.get PageBits.word
  rw [show (64 * (0 + j) + t) / 64 = j by omega, show (64 * (0 + j) + t) % 64 = t by omega]
  have hj' : j < pageBitsWords := by simpa using hj
  simp [Vector.getD, Array.getD_eq_getD_getElem?, hj']

section

variable {free : Nat → Bool}

theorem Inner.run (hx : ∀ t, t < 64 → free (64 * k + t) = !x.getLsbD t)
    (h : Inner x y l) : Run free (64 * k + y) l ∧ 64 * k + y + l ≤ 64 * (k + 1) := by
  obtain ⟨_, _, h4⟩ := h.above
  have hj := BitVec.lt_of_getLsbD h4
  refine ⟨?_, by omega⟩
  intro i _ _
  have := hx (i - 64 * k) (by omega)
  rw [show 64 * k + (i - 64 * k) = i by omega, h.zeros _ (by omega) (by omega)] at this
  simpa using this

theorem InWord.inner (hws : Words free 0 ws) (hr : Run free y l) (hl : 0 < l)
    (hle : y + l ≤ 64 * ws.length) (h : InWord free y l) : ∃ x ∈ ws, ∃ (z : Nat), Inner x z l := by
  obtain ⟨p, q, _, _, h3, h4, h5⟩ := h
  have hk : p / 64 < ws.length := by omega
  have hbit : ∀ (i : Nat), i / 64 = p / 64 → free i = !(ws[p / 64]).getLsbD (i % 64) := by
    intro i _
    have := hws (p / 64) (i % 64) hk (by omega)
    rwa [show 64 * (0 + p / 64) + i % 64 = i by omega] at this
  refine ⟨ws[p / 64], by simp, y % 64, ?_⟩
  constructor
  . refine ⟨p % 64, by omega, ?_⟩
    have := hbit p rfl
    rw [h4] at this
    simpa using this
  . refine ⟨q % 64, by omega, ?_⟩
    have := hbit q h3.symm
    rw [h5] at this
    simpa using this
  . intro i _ _
    have := hbit (64 * (p / 64) + i) (by omega)
    rw [hr _ (by omega) (by omega), show (64 * (p / 64) + i) % 64 = i by omega] at this
    simpa using this

theorem SeenUsed.isSummary (h : SeenUsed free n start most cur)
    (hrun : ∃ (x : Nat), x + r ≤ n ∧ Run free x r) (hmax : ∀ (x k : Nat), x + k ≤ n → Run free x k → k ≤ r)
    : IsSummary free 0 n ⟨start, r, cur⟩ where
  start_le := Nat.le_of_lt h.start_lt
  start_run := h.start_run
  start_stop := by
    intro _
    rw [zero_add]
    exact h.start_stop
  last_le := Nat.le_of_lt h.cur_lt
  last_run := by
    rw [zero_add]
    exact h.cur_run
  last_stop := by
    intro _
    rw [zero_add]
    exact h.cur_stop
  most_run := by
    obtain ⟨x, h1, h2⟩ := hrun
    exact ⟨x, by omega, by simpa using h1, h2⟩
  most_max := by
    intro x k _ _ h3
    exact hmax x k (by omega) h3

theorem SeenUsed.max_run (h : SeenUsed free n start most cur)
    : ∃ (x : Nat), x + max most cur ≤ n ∧ Run free x (max most cur) := by
  rcases le_total most cur with hle | hle
  . rw [Nat.max_eq_right hle]
    exact ⟨n - cur, by have := h.cur_lt; omega, h.cur_run⟩
  . rw [Nat.max_eq_left hle]
    exact h.most_run

end

end summarize

open summarize in
theorem summarize_eq_pack (b : PallocBits) : ∃ (s : Summary),
        IsSummary b.isFree 0 pallocChunkPages s ∧
        b.summarize = PallocSum.pack s.start s.most s.last := by
  have hws := words_isFree b
  have hlen : b.bits.words.toList.length = 8 := b.bits.words.length_toList
  have hinit : FirstPassInv b.isFree (64 * 0) ⟨none, 0, 0⟩ := ⟨Run.zero, rfl, rfl⟩
  have hinv := firstPass_inv _ 0 _ hws hinit
  rw [hlen, show 64 * (0 + 8) = pallocChunkPages by rfl] at hinv
  unfold summarize
  dsimp only
  generalize b.bits.words.toList.foldl firstPass ⟨none, 0, 0⟩ = st at hinv
  unfold FirstPassInv at hinv
  cases hs : st.start with
  | none =>
    rw [hs] at hinv
    refine ⟨_, summaryOf_isSummary _ _ _, ?_⟩
    rw [(summaryOf_isSummary _ _ _).eq_of_run hinv.1, hlen]
    rfl
  | some =>
    rw [hs] at hinv
    dsimp only at hinv ⊢
    rw [show (if st.cur > st.most then st.cur else st.most) = max st.most st.cur by split <;> omega]
    obtain ⟨x0, hx0, hr0⟩ := hinv.max_run
    split
    . next hge =>
      refine ⟨_, hinv.isSummary ⟨x0, hx0, hr0⟩ ?_, rfl⟩
      intro x k h1 h2
      rcases hinv.most_max x k h1 h2 with hle | hin
      . exact hle
      . have := hin.le
        omega
    next hlt =>
    have hword : ∀ x ∈ b.bits.words.toList, ∃ k < 8, ∀ t, t < 64 → b.isFree (64 * k + t) = !x.getLsbD t := by
      intro x hx
      obtain ⟨k, hk, hget⟩ := getElem_of_mem hx
      refine ⟨k, hlen ▸ hk, ?_⟩
      intro t ht
      have := hws k t hk ht
      rwa [zero_add, hget] at this
    -- Every word has a one: a free word would be a run of 64.
    have hne : ∀ x ∈ b.bits.words.toList, x ≠ 0#64 := by
      intro x hx h0
      obtain ⟨k, hk, hword⟩ := hword x hx
      have hrun := run_of_word_zero hword h0
      rcases hinv.most_max _ _ (by rw [pallocChunkPages_eq]; omega) hrun with _ | hin
      . omega
      have := hin.le
      omega
    obtain ⟨_, h2, h3⟩ := secondPass_foldl _ _ hne (show max st.most st.cur < 64 by omega)
    refine ⟨_, hinv.isSummary ?_ ?_, rfl⟩
    . rcases h2 with heq | hex
      . rw [heq]
        exact ⟨x0, hx0, hr0⟩
      obtain ⟨x, hx, _, hin⟩ := hex
      obtain ⟨k, hk, hword⟩ := hword x hx
      have := hin.run hword
      refine ⟨_, ?_, this.1⟩
      rw [pallocChunkPages_eq]
      omega
    . intro x k hle hr
      rcases hinv.most_max x k hle hr with _ | hin
      . omega
      rcases Nat.eq_zero_or_pos k with _ | hpos
      . omega
      obtain ⟨w, hw, z, hinner⟩ := hin.inner hws hr hpos (by rwa [hlen])
      exact h3 w hw z k hinner

theorem summarize_exact (b : PallocBits) : IsSummary b.isFree 0 pallocChunkPages
        ⟨b.summarize.start, b.summarize.max, b.summarize.end⟩ := by
  obtain ⟨s, hs, heq⟩ := summarize_eq_pack b
  have hpack : Packable s := Packable.of_isSummary hs (by decide)
  rw [PallocSum.start_eq_unpack, PallocSum.max_eq_unpack, PallocSum.end_eq_unpack, heq,
    PallocSum.unpack_pack hpack]
  exact hs

end PallocBits

end MHeap
