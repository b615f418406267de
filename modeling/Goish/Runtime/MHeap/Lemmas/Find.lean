import Goish.Runtime.MHeap.Lemmas.Summarize
import Mathlib.Order.Bounds.Basic

open Word Loop FreeRun

namespace MHeap

namespace findBitRange64

def Narrowed (c : BitVec 64) (t : Nat) (z : BitVec 64) : Prop :=
  ∀ (i : Nat), z.getLsbD i = true ↔ ∀ (d : Nat), d ≤ t → c.getLsbD (i + d) = true

theorem Narrowed.and_shiftRight (h : Narrowed c t z) (hk : k ≤ t + 1) : Narrowed c (t + k) (z &&& z >>> k) := by
  intro i
  rw [BitVec.getLsbD_and, BitVec.getLsbD_ushiftRight, Bool.and_eq_true, h i, h (k + i)]
  constructor
  . intro hand d _
    rcases lt_or_ge d k with _ | _
    . exact hand.1 d (by omega)
    . have := hand.2 (d - k) (by omega)
      rwa [show k + i + (d - k) = i + d by omega] at this
  intro hall
  constructor
  . intro d _
    exact hall d (by omega)
  . intro d _
    have := hall (k + d) (by omega)
    rwa [show i + (k + d) = k + i + d by omega] at this

def Ones (c : BitVec 64) (y n : Nat) : Prop :=
  ∀ (d : Nat), d < n → c.getLsbD (y + d) = true

def Post (c : BitVec 64) (n r : Nat) : Prop :=
  (r < 64 → Ones c r n ∧ ∀ (y : Nat), y < r → ¬ Ones c y n) ∧
  (64 ≤ r → ∀ (y : Nat), ¬ Ones c y n)

theorem Narrowed.eq_zero (h : Narrowed c t z) (hz : z = 0#64) (hn : t < n) : Post c n 64 := by
  refine ⟨by omega, ?_⟩
  intro _ y hones
  have := (h y).mpr (by
    intro d _
    exact hones d (by omega))
  rw [hz] at this
  simp at this

theorem finish_post (h : Narrowed c t z) : Post c (t + 1) (finish z) := by
  unfold finish
  split
  . next hz => exact h.eq_zero hz (by omega)
  next hz =>
  have hlt := trailingZeros_lt hz
  refine ⟨?_, by omega⟩
  intro _
  constructor
  . intro d _
    exact (h _).mp (getLsbD_trailingZeros hz) d (by omega)
  intro y hy hones
  have := (h y).mpr (by
    intro d _
    exact hones d (by omega))
  rw [getLsbD_of_lt_trailingZeros hy] at this
  contradiction

theorem go_post (c : BitVec 64)
    : ∀ (fuel p t k : Nat) (z : BitVec 64), Narrowed c t z → 1 ≤ k → k ≤ t + 1 → p < 64 → p ≤ fuel →
        Post c (t + p + 1) (go fuel z p k) := by
  intro fuel
  induction fuel with
  | zero =>
    intro p _ _ _ hz _ _ _ _
    have : p = 0 := by omega
    subst this
    exact finish_post hz
  | succ _ ih =>
    intro p t k _ hz _ hk2 hp _
    unfold go
    split
    . split
      . rw [Nat.mod_eq_of_lt hp]
        apply finish_post
        exact hz.and_shiftRight (by omega)
      rw [Nat.mod_eq_of_lt (by omega : k < 64)]
      have hz' := hz.and_shiftRight hk2
      dsimp only
      split
      . next h0 => exact hz'.eq_zero h0 (by omega)
      . have := ih (p - k) (t + k) (k * 2) _ hz' (by omega) (by omega) (by omega) (by omega)
        rwa [show t + k + (p - k) = t + p by omega] at this
    . have : p = 0 := by omega
      subst this
      exact finish_post hz

end findBitRange64

theorem findBitRange64_post (c : BitVec 64) (hn1 : 1 ≤ n) (hn2 : n ≤ 64)
    : findBitRange64.Post c n (findBitRange64 c n) := by
  have hz : findBitRange64.Narrowed c 0 c := by
    intro i
    constructor
    . intro _ d _
      rwa [show d = 0 by omega]
    . intro h
      exact h 0 (by omega)
  have := findBitRange64.go_post c (n - 1) (n - 1) 0 1 c hz (by omega) (by omega) (by omega) (by omega)
  rwa [show 0 + (n - 1) + 1 = n by omega] at this

namespace PallocBits

open summarize

section Word

variable (b : PallocBits) (k : Nat)

theorem isFree_word (t : Nat) (ht : t < 64) : b.isFree (64 * k + t) = !(b.bits.word k).getLsbD t := by
  unfold isFree PageBits.get
  rw [show (64 * k + t) / 64 = k by omega, show (64 * k + t) % 64 = t by omega]

theorem run_word (ht : t + n ≤ 64) : Run b.isFree (64 * k + t) n ↔ findBitRange64.Ones (~~~b.bits.word k) t n := by
  constructor
  . intro hr d _
    have := hr (64 * k + (t + d)) (by omega) (by omega)
    rw [b.isFree_word k _ (by omega)] at this
    rw [BitVec.getLsbD_not]
    simpa [show t + d < 64 by omega] using this
  intro hones i _ _
  have := hones (i - 64 * k - t) (by omega)
  rw [BitVec.getLsbD_not] at this
  rw [show i = 64 * k + (t + (i - 64 * k - t)) by omega, b.isFree_word k _ (by omega)]
  simp only [Bool.and_eq_true] at this
  exact this.2

def wordSum : Summary :=
  summaryOf b.isFree (64 * k) 64

theorem wordSum_isSummary : IsSummary b.isFree (64 * k) 64 (b.wordSum k) :=
  summaryOf_isSummary _ _ _

theorem wordSum_start : (b.wordSum k).start = trailingZeros (b.bits.word k) := by
  apply (b.wordSum_isSummary k).start_eq trailingZeros_le
  . exact run_trailingZeros (b.isFree_word k)
  intro hlt
  apply free_trailingZeros (b.isFree_word k)
  intro h0
  rw [h0, trailingZeros_zero] at hlt
  omega

theorem wordSum_last : (b.wordSum k).last = leadingZeros (b.bits.word k) := by
  apply (b.wordSum_isSummary k).last_eq leadingZeros_le
  . exact run_leadingZeros (b.isFree_word k)
  intro hlt
  apply free_leadingZeros (b.isFree_word k)
  intro h0
  rw [h0, leadingZeros_zero] at hlt
  omega

theorem wordSum_full (h : ~~~b.bits.word k = 0#64) : b.wordSum k = ⟨0, 0, 0⟩ := by
  apply (b.wordSum_isSummary k).unique
  apply IsSummary.empty
  intro i _ _
  have hbit : (~~~b.bits.word k).getLsbD (i - 64 * k) = false := by
    rw [h]
    simp
  rw [BitVec.getLsbD_not, decide_eq_true (by omega : i - 64 * k < 64), Bool.true_and] at hbit
  rwa [show i = 64 * k + (i - 64 * k) by omega, b.isFree_word k _ (by omega)]

theorem wordSum_most_lt (hn1 : 1 ≤ n) (hn2 : n ≤ 64)
    (h : 64 ≤ findBitRange64 (~~~b.bits.word k) n) : (b.wordSum k).most < n := by
  obtain ⟨x, _, _, h3⟩ := (b.wordSum_isSummary k).most_run
  rcases lt_or_ge (b.wordSum k).most n with hlt | _
  . exact hlt
  . have hr := h3.mono (Nat.le_refl x) (by omega : x + n ≤ x + (b.wordSum k).most)
    rw [show x = 64 * k + (x - 64 * k) by omega, b.run_word k (by omega)] at hr
    exact absurd hr ((findBitRange64_post _ hn1 hn2).2 h _)

theorem firstFit_word (hn1 : 1 ≤ n) (hn2 : n ≤ 64)
    (h : findBitRange64 (~~~b.bits.word k) n < 64) : n ≤ (b.wordSum k).most ∧
      FirstFit b.isFree (64 * k) (64 * k + 64) n
        (some (64 * k + findBitRange64 (~~~b.bits.word k) n)) := by
  obtain ⟨hones, hfirst⟩ := (findBitRange64_post (~~~b.bits.word k) hn1 hn2).1 h
  generalize findBitRange64 (~~~b.bits.word k) n = r at *
  have hle : r + n ≤ 64 := by
    have := BitVec.lt_of_getLsbD (hones (n - 1) (by omega))
    omega
  have hr := (b.run_word k hle).mpr hones
  constructor
  . exact (b.wordSum_isSummary k).most_max _ _ (by omega) (by omega) hr
  refine ⟨by omega, by omega, hr, ?_⟩
  intro x _ _ hrx
  rw [show x = 64 * k + (x - 64 * k) by omega, b.run_word k (by omega)] at hrx
  exact hfirst _ (by omega) hrx

end Word

section Search

variable {b : PallocBits}

theorem firstFit_none (hi : i = pageBitsWords) (hw : Window b.isFree 0 (64 * i) n size)
    : FirstFit b.isFree 0 pallocChunkPages n none := by
  intro x h1 h2
  apply hw.none x h1
  rwa [hi]

theorem window_extend (hw : Window b.isFree 0 (64 * i) n size) (hno : size + trailingZeros (b.bits.word i) < n)
    (hmost : (b.wordSum i).most < n) : Window b.isFree 0 (64 * (i + 1)) n
        (if trailingZeros (b.bits.word i) = 64 then size + 64 else leadingZeros (b.bits.word i)) := by
  rw [← b.wordSum_start] at hno ⊢
  rw [← b.wordSum_last]
  exact hw.extend (b.wordSum_isSummary i) hno hmost

theorem window_extend_full (hw : Window b.isFree 0 (64 * i) n size)
    (hfull : ~~~b.bits.word i = 0#64) : Window b.isFree 0 (64 * (i + 1)) n 0 := by
  have hs := b.wordSum_isSummary i
  have hlt := hw.size_lt
  rw [b.wordSum_full i hfull] at hs
  exact hw.extend hs (by simpa using hlt) (by dsimp only; omega)

theorem window_straddle (hi : i < pageBitsWords) (hw : Window b.isFree 0 (64 * i) n size)
    (hfit : n ≤ size + trailingZeros (b.bits.word i))
    : FirstFit b.isFree 0 pallocChunkPages n (some (64 * i - size)) := by
  have hs := b.wordSum_isSummary i
  have hle := hs.start_le
  rw [← b.wordSum_start] at hfit
  apply hw.firstFit_straddle hs hfit
  have hwords : pageBitsWords = 8 := rfl
  rw [pallocChunkPages_eq]
  omega

theorem find1.go_firstFit : ∀ (fuel i : Nat), i + fuel = pageBitsWords → Window b.isFree 0 (64 * i) 1 0 →
        FirstFit b.isFree 0 pallocChunkPages 1 (find1.go b fuel i) := by
  intro fuel
  induction fuel with
  | zero =>
    intro i hi hw
    exact firstFit_none hi hw
  | succ _ ih =>
    intro i _ hw
    unfold go
    dsimp only
    split
    . next hfull => exact ih (i + 1) (by omega) (window_extend_full hw hfull)
    next hne =>
    have hlt := trailingZeros_lt hne
    have hfind : findBitRange64 (~~~b.bits.word i) 1 = trailingZeros (~~~b.bits.word i) := by
      simp [findBitRange64, findBitRange64.go, findBitRange64.finish, hne]
    have hfit := b.firstFit_word i (n := 1) (by omega) (by omega) (by omega)
    have hwords : pageBitsWords = 8 := rfl
    rw [hfind] at hfit
    rw [mul_comm i 64]
    exact hw.firstFit_of_empty rfl (by rw [pallocChunkPages_eq]; omega) hfit.2

theorem findSmallN.go_firstFit (hn1 : 1 ≤ npages) (hn2 : npages ≤ 64)
    : ∀ (fuel i end_ : Nat) (newSearchIdx : Option Nat),
        i + fuel = pageBitsWords → Window b.isFree 0 (64 * i) npages end_ →
        FirstFit b.isFree 0 pallocChunkPages npages (go b npages fuel i end_ newSearchIdx).1 := by
  intro fuel
  induction fuel with
  | zero =>
    intro _ _ _ hi hw
    exact firstFit_none hi hw
  | succ _ ih =>
    intro i _ _ _ hw
    have hwords : pageBitsWords = 8 := rfl
    unfold go
    dsimp only
    rw [mul_comm i 64]
    split
    . next hfull => exact ih (i + 1) 0 _ (by omega) (window_extend_full hw hfull)
    split
    . next hfit => exact window_straddle (by omega) hw hfit
    next hno =>
    split
    . next hlt =>
      obtain ⟨hmost, hfit⟩ := b.firstFit_word i hn1 hn2 hlt
      apply hw.firstFit_descend (b.wordSum_isSummary i) _ hmost _ hfit
      . rw [b.wordSum_start]
        omega
      . rw [pallocChunkPages_eq]
        omega
    . next hge =>
      have hw' := window_extend hw (by omega) (b.wordSum_most_lt i hn1 hn2 (by omega))
      -- A word of free pages only is a fit, so the search stops there.
      rw [if_neg (by omega)] at hw'
      exact ih (i + 1) _ _ (by omega) hw'

theorem findLargeN.go_firstFit (hn : 64 < npages) : ∀ (fuel i start size : Nat) (newSearchIdx : Option Nat),
        i + fuel = pageBitsWords → Window b.isFree 0 (64 * i) npages size →
        (size ≠ 0 → start = 64 * i - size) →
        FirstFit b.isFree 0 pallocChunkPages npages (go b npages fuel i start size newSearchIdx).1 := by
  intro fuel
  induction fuel with
  | zero =>
    intro _ _ _ _ hi hw _
    unfold go
    rw [if_pos hw.size_lt]
    exact firstFit_none hi hw
  | succ _ ih =>
    intro i _ size _ _ hw hstart
    have ht := trailingZeros_le (x := b.bits.word i)
    have hmost : (b.wordSum i).most < npages := by
      have := (b.wordSum_isSummary i).most_le
      omega
    unfold go
    dsimp only
    rw [mul_comm i 64]
    split
    . next hfull =>
      apply ih (i + 1) _ 0 _ (by omega) (window_extend_full hw _)
      . intro h
        contradiction
      . rw [hfull]
        decide
    split
    . next h0 =>
      have hw' := window_extend hw (by omega) hmost
      have hsize : (if trailingZeros (b.bits.word i) = 64 then size + 64
          else leadingZeros (b.bits.word i)) = leadingZeros (b.bits.word i) := by
        split
        . next h64 =>
          rw [trailingZeros_eq_width_iff.mp h64, leadingZeros_zero]
          omega
        . rfl
      rw [hsize] at hw'
      apply ih (i + 1) _ _ _ (by omega) hw'
      intro _
      omega
    next h0 =>
    split
    . next hfit =>
      rw [hstart h0]
      exact window_straddle (by omega) hw (by omega)
    next hno =>
    have hw' := window_extend hw (by omega) hmost
    split
    . rw [if_neg (by omega)] at hw'
      apply ih (i + 1) _ _ _ (by omega) hw'
      intro _
      omega
    rw [if_pos (by omega)] at hw'
    apply ih (i + 1) _ _ _ (by omega) hw'
    intro _
    rw [hstart h0]
    omega

end Search

theorem find_firstFit (b : PallocBits) (hn : 1 ≤ npages)
    : FirstFit b.isFree 0 pallocChunkPages npages (b.find npages 0).1 := by
  have hw : Window b.isFree 0 (64 * 0) npages 0 := Window.init hn
  unfold find
  split
  . next h1 =>
    rw [h1] at hw ⊢
    exact find1.go_firstFit _ _ rfl hw
  split
  . exact findSmallN.go_firstFit hn (by omega) _ _ _ _ rfl hw
  . apply findLargeN.go_firstFit (by omega) _ _ _ _ _ rfl hw
    intro h
    contradiction

def FreeAt (b : PallocBits) (npages i : Nat) : Prop :=
  i + npages ≤ pallocChunkPages ∧ ∀ (j : Nat), i ≤ j → j < i + npages → b.bits.get j = false

theorem freeAt_iff (b : PallocBits) (npages i : Nat)
    : b.FreeAt npages i ↔ i + npages ≤ pallocChunkPages ∧ Run b.isFree i npages := by
  unfold FreeAt Run isFree
  simp only [Bool.not_eq_true']

theorem find_exact (b : PallocBits) (hn : 1 ≤ npages)
    : (∀ (i : Nat), (b.find npages 0).1 = some i ↔ IsLeast { i | b.FreeAt npages i } i) ∧
      ((b.find npages 0).1 = none ↔ ∀ (i : Nat), ¬ b.FreeAt npages i) := by
  have hfit := find_firstFit b hn
  generalize (b.find npages 0).1 = r at hfit
  cases r with
  | none =>
    have hno : ∀ (i : Nat), ¬ b.FreeAt npages i := by
      intro i hi
      rw [freeAt_iff] at hi
      apply hfit i (Nat.zero_le i) _ hi.2
      omega
    refine ⟨?_, by simp [hno]⟩
    intro i
    constructor
    . intro h
      contradiction
    . intro h
      exact absurd h.1 (hno i)
  | some r =>
    obtain ⟨_, hr, hrun, hfirst⟩ := hfit
    have hleast : IsLeast { i | b.FreeAt npages i } r := by
      refine ⟨(freeAt_iff b npages r).mpr ⟨hr, hrun⟩, ?_⟩
      intro i hi
      rcases lt_or_ge i r with hlt | hge
      . exact absurd ((freeAt_iff b npages i).mp hi).2 (hfirst i (Nat.zero_le i) hlt)
      . exact hge
    constructor
    . intro i
      rw [Option.some.injEq]
      constructor
      . intro h
        rwa [← h]
      . intro h
        exact hleast.unique h
    . refine ⟨by intro h; contradiction, ?_⟩
      intro h
      exact absurd hleast.1 (h r)

theorem find_exact_whole : IsLeast { i | PallocBits.zero.FreeAt 512 i } 0 :=
  ((find_exact PallocBits.zero (by decide)).1 0).mp (by decide +kernel)

end PallocBits

end MHeap
