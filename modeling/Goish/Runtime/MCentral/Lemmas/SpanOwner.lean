import Goish.Runtime.MCentral.Lemmas.Span

open Word

namespace Central

namespace Span

structure Refilled (s : Span) (wi : Nat) (load : BitVec 64) (s' : Span) : Prop where
  get : ∀ x, s'.allocBits.get x = (s.allocBits.get x || (decide (wi = x / 64) && !load.getLsbD (x % 64)))
  count : s'.allocCount = s'.allocBits.popcount
  nelems : s'.nelems = s.nelems
  allocCache : s'.allocCache = ~~~load

theorem nelems_refill (s : Span) (wi : Nat) (load : BitVec 64) : (s.refill wi load).nelems = s.nelems := by
  unfold refill refillAllocCache
  dsimp only
  split <;> split <;> rfl

theorem freeindex_refill (s : Span) (wi : Nat) (load : BitVec 64) : (s.refill wi load).freeindex = s.freeindex := by
  unfold refill refillAllocCache
  dsimp only
  split <;> split <;> rfl

theorem refill_refilled (hwi : wi < allocBitsWords) (hc : s.allocCount = s.allocBits.popcount)
    (hclear : ∀ t, t < 64 → load.getLsbD t = false → s.allocBits.get (64 * wi + t) = false)
    : Refilled s wi load (s.refill wi load) := by
  have hbit : ∀ x, x % 64 < 64 := fun x => Nat.mod_lt x (by omega)
  unfold refill refillAllocCache
  dsimp only
  by_cases h0 : ~~~load = 0#64
  . rw [if_neg (not_not.mpr h0), if_neg (not_not.mpr (countOnes_eq_zero_iff.mpr h0))]
    refine ⟨?_, hc, rfl, rfl⟩
    intro x
    have hx : (~~~load).getLsbD (x % 64) = false := by
      rw [h0]
      simp
    rw [BitVec.getLsbD_not, decide_eq_true (hbit x), Bool.true_and] at hx
    simp [hx]
  rw [if_pos h0, if_pos (mt countOnes_eq_zero_iff.mp h0)]
  refine ⟨?_, ?_, rfl, rfl⟩
  . intro x
    rw [allocBits_fetchAddCount, get_fetchOr hwi, BitVec.getLsbD_not, decide_eq_true (hbit x),
      Bool.true_and]
  . apply fetchOr_count hwi hc
    intro t ht hm
    apply hclear t ht
    simpa [ht] using hm

def Refill.first : Refill → Nat
  | .window sfreeindex => sfreeindex
  | .prefetch slot => slot + 1

theorem Pending.first_spec (h : Pending clean s held r)
    : r.first % 64 = 0 ∧ r.first < s.nelems ∧ r.wordIndex = r.first / 64 := by
  have hready := h.ready
  have hle := h.nelems_le
  cases r with
  | window => exact ⟨hready.1, hready.2, rfl⟩
  | prefetch =>
    refine ⟨hready.1, hready.2.1, ?_⟩
    have := hready.2.1
    dsimp only [Refill.wordIndex, Refill.first]
    rw [u16_eq (by omega)]

theorem Loaded.refill (h : Loaded clean s held r load)
    : Claimed clean (s.refill r.wordIndex load) (fun x => held x ∨ r = .prefetch x) r.first := by
  obtain ⟨haligned, hlt, hword⟩ := h.toPending.first_spec
  have hle := h.nelems_le
  have hwi : r.wordIndex < allocBitsWords := by
    rw [allocBitsWords_eq]
    omega
  have hf := refill_refilled hwi h.count h.clear
  have hsold : ∀ x, r = .prefetch x → x < s.nelems ∧ s.allocBits.get x = true ∧ x + 1 = r.first := by
    intro x hx
    have hready := h.ready
    subst hx
    obtain ⟨_, _, h3, _⟩ := hready
    exact ⟨by omega, h3, rfl⟩
  -- A bit of the window was clear, so its slot was not handed out.
  have hnew : ∀ i, (~~~load).getLsbD i = true → i < 64 ∧ load.getLsbD i = false
      ∧ s.allocBits.get (r.first + i) = false := by
    intro i hi
    have hi64 := BitVec.lt_of_getLsbD hi
    rw [BitVec.getLsbD_not, decide_eq_true hi64, Bool.true_and, Bool.not_eq_true'] at hi
    refine ⟨hi64, hi, ?_⟩
    have := h.clear i hi64 hi
    rwa [show 64 * r.wordIndex + i = r.first + i by omega] at this
  constructor
  case toCounted =>
    constructor
    . rwa [hf.nelems]
    . exact hf.count
    . intro x hx
      rw [hf.nelems]
      rcases hx with hx | hx
      . exact h.held_lt x hx
      . exact (hsold x hx).1
    . intro x hx
      rw [hf.get]
      rcases hx with hx | hx
      . rw [h.held_get x hx, Bool.true_or]
      . rw [(hsold x hx).2.1, Bool.true_or]
  case le =>
    rw [hf.nelems]
    omega
  case claimed =>
    intro i hi _
    rw [hf.allocCache] at hi
    obtain ⟨_, hload, hclear⟩ := hnew i hi
    constructor
    . rw [hf.get, decide_eq_true (by omega), show (r.first + i) % 64 = i by omega, hload]
      simp
    rintro (hx | hx)
    . rw [h.held_get _ hx] at hclear
      contradiction
    . have := (hsold _ hx).2.2
      omega
  case aligned =>
    intro _ i hi
    have := BitVec.lt_of_getLsbD hi
    omega
  case phantom =>
    rw [hf.nelems]
    intro _ j hj _
    rw [hf.get, decide_eq_true (by omega), Bool.true_and]
    cases hload : load.getLsbD (j % 64) with
    | false => simp
    | true =>
      have := h.kept (j % 64) (Nat.mod_lt j (by omega)) hload
      rw [show 64 * r.wordIndex + j % 64 = j by omega] at this
      rw [this hj]
      rfl
  case spent =>
    rw [hf.nelems]
    intro _
    omega
  case exact =>
    intro hclean j hj
    rw [hf.get, Bool.or_eq_true, Bool.and_eq_true, decide_eq_true_eq, Bool.not_eq_true'] at hj
    rcases hj with hj | hj
    . exact Or.inl (h.exact hclean j hj)
    . refine Or.inr ⟨j % 64, ?_, by omega⟩
      rw [hf.allocCache, BitVec.getLsbD_not, decide_eq_true (Nat.mod_lt j (by omega)), hj.2]
      rfl

def Outcome.Ok (clean : Prop) (held : Nat → Prop) : Outcome → Prop
  | .done none s => Claimed clean s held s.freeindex
  | .done (some k) s =>
    k < s.nelems ∧ ¬ held k ∧ Claimed clean s (fun x => held x ∨ x = k) s.freeindex
  | .overrun s => ¬ clean → Claimed clean s held s.freeindex
  | .refill r s => Pending clean s held r

section Claimed

variable (h : Claimed clean s held f)
include h

theorem Claimed.last (hcache : s.allocCache = 0#64) : ∀ j, clean → s.allocBits.get j = true → held j := by
  intro j hclean hj
  rcases h.exact hclean j hj with hheld | hcl
  . exact hheld
  . rw [hcache] at hcl
    simp at hcl

section

variable (hlt : f < s.nelems) (hne : s.allocCache ≠ 0#64)
include hlt hne

theorem Claimed.first : f % 64 + trailingZeros s.allocCache < 64 ∧
      s.allocBits.get (f + trailingZeros s.allocCache) = true ∧
      ¬ held (f + trailingZeros s.allocCache) := by
  have hbit := getLsbD_trailingZeros hne
  have haligned := h.aligned (Or.inr hlt) _ hbit
  exact ⟨haligned, h.claimed _ hbit haligned⟩

theorem Claimed.overrun (hge : s.nelems ≤ f + trailingZeros s.allocCache) (hclean : ¬ clean)
    : Claimed clean { s with freeindex := s.nelems } held s.nelems := by
  have hfirst := (h.first hlt hne).1
  constructor
  case toCounted => exact { h with }
  case le => exact le_rfl
  case claimed =>
    intro i _ _
    constructor
    . exact h.phantom hlt (s.nelems + i) (by omega) (by omega)
    . intro hheld
      have := h.held_lt _ hheld
      omega
  case aligned =>
    rintro (_ | hlt)
    . contradiction
    . exact absurd hlt (lt_irrefl _)
  case phantom =>
    intro hlt
    exact absurd hlt (lt_irrefl _)
  case spent =>
    intro _ _
    omega
  case exact =>
    intro _
    contradiction

theorem Claimed.sell (hslot : f + trailingZeros s.allocCache = slot)
    (hsell : slot < s.nelems) (hword : (slot + 1) % 64 = 0 → slot + 1 = s.nelems) : Claimed clean
        { s with
          allocCache := s.allocCache >>> (trailingZeros s.allocCache + 1)
          freeindex := slot + 1 }
        (fun x => held x ∨ x = slot) (slot + 1) := by
  obtain ⟨_, h2, h3⟩ := h.first hlt hne
  rw [hslot] at h2 h3
  have hrest : ∀ i, (s.allocCache >>> (trailingZeros s.allocCache + 1)).getLsbD i = true →
      s.allocCache.getLsbD (trailingZeros s.allocCache + 1 + i) = true
        ∧ f % 64 + (trailingZeros s.allocCache + 1 + i) < 64 := by
    intro i hi
    rw [BitVec.getLsbD_ushiftRight] at hi
    exact ⟨hi, h.aligned (Or.inr hlt) _ hi⟩
  constructor
  case toCounted =>
    constructor
    . exact h.nelems_le
    . exact h.count
    . rintro x (hx | hx)
      . exact h.held_lt x hx
      . rwa [hx]
    . rintro x (hx | hx)
      . exact h.held_get x hx
      . rwa [hx]
  case le => exact hsell
  case claimed =>
    intro i hi _
    obtain ⟨hbit, hal⟩ := hrest i hi
    obtain ⟨hget, hheld⟩ := h.claimed _ hbit hal
    rw [show f + (trailingZeros s.allocCache + 1 + i) = slot + 1 + i by omega] at hget hheld
    refine ⟨hget, ?_⟩
    rintro (hx | hx)
    . exact hheld hx
    . omega
  case aligned =>
    intro _ i hi
    have := (hrest i hi).2
    omega
  case phantom =>
    intro hlt' j hj _
    apply h.phantom hlt j hj
    dsimp only at hlt'
    omega
  case spent =>
    intro _ _
    apply BitVec.eq_of_getLsbD_eq
    intro i _
    rw [BitVec.getLsbD_zero, Bool.eq_false_iff]
    intro hbit
    have := (hrest i hbit).2
    omega
  case exact =>
    intro hclean j hj
    rcases h.exact hclean j hj with hheld | hcl
    . exact Or.inl (Or.inl hheld)
    obtain ⟨i, hi, _⟩ := hcl
    rcases lt_trichotomy i (trailingZeros s.allocCache) with hlt | hge
    . rw [getLsbD_of_lt_trailingZeros hlt] at hi
      contradiction
    rcases hge with _ | _
    . exact Or.inl (Or.inr (by omega))
    refine Or.inr ⟨i - (trailingZeros s.allocCache + 1), ?_, by omega⟩
    rw [BitVec.getLsbD_ushiftRight,
      show trailingZeros s.allocCache + 1 + (i - (trailingZeros s.allocCache + 1)) = i by omega]
    exact hi

theorem Claimed.prefetch
    (hslot : f + trailingZeros s.allocCache = slot) (hword : (slot + 1) % 64 = 0) (hnext : slot + 1 < s.nelems)
    : Pending clean { s with allocCache := s.allocCache >>> (trailingZeros s.allocCache + 1) } held
        (.prefetch slot) := by
  obtain ⟨_, h2, h3⟩ := h.first hlt hne
  rw [hslot] at h2 h3
  constructor
  case toCounted => exact { h with }
  case ready => exact ⟨hword, hnext, h2, h3⟩
  case exact =>
    intro hclean j hj
    rcases h.exact hclean j hj with hheld | hcl
    . exact Or.inl hheld
    obtain ⟨i, hi, hj⟩ := hcl
    have hal := h.aligned (Or.inr hlt) i hi
    rcases lt_or_ge i (trailingZeros s.allocCache) with hlt | _
    . rw [getLsbD_of_lt_trailingZeros hlt] at hi
      contradiction
    . right
      rw [hj, ← hslot]
      congr 1
      omega

end

theorem Claimed.scan (hlt : f < s.nelems) : (nextFreeOwner.scan s f).Ok clean held := by
  have hle := h.nelems_le
  unfold nextFreeOwner.scan
  dsimp only
  rw [u16_eq (show f + 64 < 2 ^ 16 by omega)]
  split
  . next h64 =>
    have hcache : s.allocCache = 0#64 := trailingZeros_eq_width_iff.mp h64
    split
    . constructor
      case toCounted => exact { h with }
      case le => exact le_rfl
      case claimed =>
        intro i hi
        simp [hcache] at hi
      case aligned =>
        intro _ i hi
        simp [hcache] at hi
      case phantom =>
        intro hlt
        exact absurd hlt (lt_irrefl _)
      case spent =>
        intro _ _
        exact hcache
      case exact =>
        intro hclean j hj
        exact Or.inl (h.last hcache j hclean hj)
    . next hwin =>
      constructor
      case toCounted => exact h.toCounted
      case ready =>
        unfold Refill.Ready
        omega
      case exact =>
        intro hclean j hj
        exact Or.inl (h.last hcache j hclean hj)
  . next h64 =>
    have hne : s.allocCache ≠ 0#64 := fun h0 => h64 (trailingZeros_eq_width_iff.mpr h0)
    have hfirst := (h.first hlt hne).1
    generalize hslot : f + trailingZeros s.allocCache = slot
    rw [u16_eq (show slot < 2 ^ 16 by omega), u16_eq (show slot + 1 < 2 ^ 16 by omega)]
    split
    . intro hclean
      exact h.overrun hlt hne (by omega) hclean
    split
    . next hword => exact h.prefetch hlt hne hslot hword.1 hword.2
    . next hslt hword =>
      refine ⟨lt_of_not_ge hslt, ?_, h.sell hlt hne hslot (by omega) (by omega)⟩
      have := (h.first hlt hne).2.2
      rwa [hslot] at this

end Claimed

theorem Claimed.start (h : Claimed clean s held s.freeindex) : (nextFreeOwner.start s).Ok clean held := by
  unfold nextFreeOwner.start
  dsimp only
  split
  . exact h
  . exact h.scan (by omega)

theorem Loaded.resume (h : Loaded clean s held r load) : (nextFreeOwner.resume s r load).Ok clean held := by
  have hcl := h.refill
  have hready := h.ready
  have hle := h.nelems_le
  have hlt := h.toPending.first_spec.2.1
  have hnelems := nelems_refill s r.wordIndex load
  unfold nextFreeOwner.resume
  cases r with
  | window sfreeindex =>
    apply Claimed.scan
    . have heq : held = fun x => held x ∨ Refill.window sfreeindex = .prefetch x := by
        funext x
        simp
      rwa [heq]
    . rwa [hnelems]
  | prefetch slot =>
    obtain ⟨_, _, _, h4⟩ := hready
    have heq : (fun x => held x ∨ Refill.prefetch slot = .prefetch x)
        = fun x => held x ∨ x = slot := by
      funext x
      simp [eq_comm]
    rw [heq] at hcl
    dsimp only
    rw [u16_eq (by omega)]
    refine ⟨?_, h4, ?_⟩
    . dsimp only
      rw [hnelems]
      omega
    . apply hcl.congr
      exact ⟨rfl, rfl, rfl, rfl⟩

theorem Claimed.scan_wordIndex (h : Claimed clean s held f) (hlt : f < s.nelems)
    (heq : nextFreeOwner.scan s f = .refill r s') : f / 64 < r.wordIndex := by
  have hle := h.nelems_le
  unfold nextFreeOwner.scan at heq
  dsimp only at heq
  rw [u16_eq (show f + 64 < 2 ^ 16 by omega)] at heq
  split at heq
  . split at heq
    . contradiction
    cases heq
    dsimp only [Refill.wordIndex]
    omega
  have hz := trailingZeros_le (x := s.allocCache)
  rw [u16_eq (show f + trailingZeros s.allocCache < 2 ^ 16 by omega)] at heq
  split at heq
  . contradiction
  split at heq
  . next hword =>
    cases heq
    dsimp only [Refill.wordIndex]
    rw [u16_eq (by omega)] at hword ⊢
    omega
  . contradiction

theorem run_done (fuel : Nat) : nextFreeOwner.run fuel (.done slot s) = .done slot s := by
  cases fuel <;> rfl

theorem run_overrun (fuel : Nat) : nextFreeOwner.run fuel (.overrun s) = .overrun s := by
  cases fuel <;> rfl

theorem desc_run (fuel : Nat) (o : Outcome) : (nextFreeOwner.run fuel o).span.desc = o.span.desc := by
  induction fuel generalizing o with
  | zero => cases o <;> rfl
  | succ _ ih =>
    cases o with
    | done | overrun => rfl
    | refill =>
      unfold nextFreeOwner.run
      rw [ih, desc_resume]
      rfl

theorem Pending.run (h : Pending clean s held r) (hfuel : allocBitsWords < fuel + r.wordIndex)
    : (nextFreeOwner.run fuel (.refill r s)).Ok clean held ∧
      ∀ r' s', nextFreeOwner.run fuel (.refill r s) ≠ .refill r' s' := by
  induction fuel generalizing s r with
  | zero =>
    have hfirst := h.first_spec
    have hle := h.nelems_le
    rw [allocBitsWords_eq] at hfuel
    omega
  | succ _ ih =>
    have hok := h.load.resume
    unfold nextFreeOwner.run
    generalize hres : nextFreeOwner.resume s r (s.allocBits.word r.wordIndex) = o at hok
    cases o with
    | done =>
      rw [run_done]
      exact ⟨hok, fun _ _ => nofun⟩
    | overrun =>
      rw [run_overrun]
      exact ⟨hok, fun _ _ => nofun⟩
    | refill =>
      apply ih hok
      -- Only the loop goes on to another refill, and that is of a later word.
      have hcl := h.load.refill
      have hlt := h.first_spec.2.1
      have hnelems := nelems_refill s r.wordIndex (s.allocBits.word r.wordIndex)
      cases r with
      | window =>
        have := hcl.scan_wordIndex (by rw [hnelems]; exact hlt) hres
        dsimp only [Refill.wordIndex, Refill.first] at this hfuel ⊢
        omega
      | prefetch => contradiction

theorem Claimed.nextFreeOwner (h : Claimed clean s held s.freeindex)
    : s.nextFreeOwner.Ok clean held ∧ ∀ r s', s.nextFreeOwner ≠ .refill r s' := by
  have hok := h.start
  unfold Span.nextFreeOwner
  generalize hstart : nextFreeOwner.start s = o at hok
  cases o with
  | done | overrun => exact ⟨hok, fun _ _ => nofun⟩
  | refill =>
    apply Pending.run hok
    unfold nextFreeOwner.start at hstart
    dsimp only at hstart
    split at hstart
    . contradiction
    have := h.scan_wordIndex (by omega) hstart
    omega

theorem Claimed.release (h : Claimed clean s held s.freeindex) : AtRest clean s.releaseUnsold held := by
  have hle := h.nelems_le
  have hf := h.le
  unfold releaseUnsold
  dsimp only
  split
  . next h0 =>
    exact { toCounted := h.toCounted, exact := fun hclean j hj => h.last h0 j hclean hj }
  next hne =>
  have hwi : s.freeindex / 64 < allocBitsWords := by
    rw [allocBitsWords_eq]
    rcases lt_or_ge s.freeindex 1024 with _ | _
    . omega
    . exact absurd (h.spent (by omega) (by omega)) hne
  rw [if_pos hwi]
  generalize hmask : s.allocCache <<< (s.freeindex % 64) = mask
  have hbit : ∀ t, mask.getLsbD t = true ↔
      t < 64 ∧ s.freeindex % 64 ≤ t ∧ s.allocCache.getLsbD (t - s.freeindex % 64) = true := by
    intro t
    rw [← hmask, BitVec.getLsbD_shiftLeft]
    simp [and_assoc]
  -- A bit of the mask is a bit of the window.
  have hwin : ∀ t, mask.getLsbD t = true →
      s.allocBits.get (64 * (s.freeindex / 64) + t) = true
        ∧ ¬ held (64 * (s.freeindex / 64) + t) := by
    intro t ht
    obtain ⟨_, _, h3⟩ := (hbit t).mp ht
    have := h.claimed _ h3 (by omega)
    rwa [show s.freeindex + (t - s.freeindex % 64) = 64 * (s.freeindex / 64) + t by omega] at this
  have hexact : ∀ j, clean → s.allocBits.get j = true →
      held j ∨ s.freeindex / 64 = j / 64 ∧ mask.getLsbD (j % 64) = true := by
    intro j hclean hj
    rcases h.exact hclean j hj with hheld | hcl
    . exact Or.inl hheld
    obtain ⟨i, hi, _⟩ := hcl
    have hal := h.aligned (Or.inl hclean) i hi
    refine Or.inr ⟨by omega, (hbit _).mpr ⟨by omega, by omega, ?_⟩⟩
    rwa [show j % 64 - s.freeindex % 64 = i by omega]
  split
  . have hget : ∀ j, ((s.fetchAnd (s.freeindex / 64) (~~~mask)).allocBits.get j) = true ↔
        s.allocBits.get j = true ∧ ¬ (s.freeindex / 64 = j / 64 ∧ mask.getLsbD (j % 64) = true) := by
      intro j
      rw [get_fetchAnd_not hwi]
      simp only [Bool.and_eq_true, Bool.not_eq_true', Bool.and_eq_false_imp, decide_eq_true_eq,
        not_and, Bool.not_eq_true]
    constructor
    case toCounted =>
      constructor
      . exact hle
      . exact fetchAnd_count hwi h.count (fun t _ ht => (hwin t ht).1)
      . exact h.held_lt
      intro j hj
      refine (hget j).mpr ⟨h.held_get j hj, ?_⟩
      intro hm
      apply (hwin _ hm.2).2
      rwa [show 64 * (s.freeindex / 64) + j % 64 = j by omega]
    case exact =>
      intro hclean j hj
      obtain ⟨hj, hm⟩ := (hget j).mp hj
      rcases hexact j hclean hj with hheld | hmask
      . exact hheld
      . contradiction
  . next h0 =>
    constructor
    case toCounted => exact ⟨hle, h.count, h.held_lt, h.held_get⟩
    case exact =>
      intro hclean j hj
      rcases hexact j hclean hj with hheld | hm
      . exact hheld
      . rw [not_not.mp h0] at hm
        simp at hm

def LockedOk (clean : Prop) (held : Nat → Prop) : Option Nat × Span → Prop
  | (none, s) => AtRest clean s held
  | (some k, s) => k < s.nelems ∧ ¬ held k ∧ AtRest clean s (fun x => held x ∨ x = k)

theorem AtRest.take (h : AtRest clean s held) (hk : k < s.nelems)
    (hget : s.allocBits.get k = false) : LockedOk clean held
        (some k, { (s.fetchOr (k / 64) (slotMask k)).fetchAddCount 1 with freeindex := f }) := by
  have hle := h.nelems_le
  have hwi : k / 64 < allocBitsWords := by
    rw [allocBitsWords_eq]
    omega
  have hones : countOnes (slotMask k) = 1 := countOnes_one_shiftLeft (Nat.mod_lt k (by omega))
  have hbits : ∀ j, (s.fetchOr (k / 64) (slotMask k)).allocBits.get j = true ↔
      s.allocBits.get j = true ∨ j = k := by
    intro j
    rw [get_fetchOr hwi, getLsbD_slotMask]
    simp only [Bool.or_eq_true, Bool.and_eq_true, decide_eq_true_eq]
    apply or_congr_right
    omega
  refine ⟨hk, ?_, ?_⟩
  . intro hheld
    rw [h.held_get k hheld] at hget
    contradiction
  constructor
  case toCounted =>
    constructor
    . exact hle
    . rw [← hones]
      apply fetchOr_count hwi h.count
      intro t _ ht
      rw [getLsbD_slotMask, decide_eq_true_eq] at ht
      rwa [ht, show 64 * (k / 64) + k % 64 = k by omega]
    . rintro j (hj | hj)
      . exact h.held_lt j hj
      . rwa [hj]
    . intro j hj
      apply (hbits j).mpr
      rcases hj with hj | hj
      . exact Or.inl (h.held_get j hj)
      . exact Or.inr hj
  case exact =>
    intro hclean j hj
    rcases (hbits j).mp hj with hj | hj
    . exact Or.inl (h.exact hclean j hj)
    . exact Or.inr hj

theorem AtRest.allocSlotLocked_go (h : AtRest clean s held) (fuel wi : Nat)
    (hfuel : fuel + wi ≤ allocBitsWords) : LockedOk clean held (allocSlotLocked.go s fuel wi) := by
  induction fuel generalizing wi with
  | zero => exact h
  | succ _ ih =>
    unfold allocSlotLocked.go
    dsimp only
    rw [allocBitsWords_eq] at hfuel
    rw [u16_eq (show wi * 64 < 2 ^ 16 by omega)]
    generalize (if (if wi * 64 < s.freeindex then s.freeindex - wi * 64 else 0) = 0 then
      BitVec.allOnes 64 else _) = mask
    split
    . apply ih
      rw [allocBitsWords_eq]
      omega
    next hne =>
    have hlt := trailingZeros_lt hne
    have hbit := getLsbD_trailingZeros hne
    generalize hb : trailingZeros (~~~s.allocBits.word wi &&& mask) = bit at hlt hbit
    rw [BitVec.getLsbD_and, Bool.and_eq_true, BitVec.getLsbD_not, decide_eq_true hlt,
      Bool.true_and, Bool.not_eq_true', ← Bitmap.get_word hlt] at hbit
    rw [u16_eq (show wi * 64 + bit < 2 ^ 16 by omega)]
    split
    . apply h.congr
      exact ⟨rfl, rfl, rfl, rfl⟩
    next hslot =>
    have hword : (wi * 64 + bit) / 64 = wi := by omega
    have hmask : slotMask (wi * 64 + bit) = 1#64 <<< bit := by
      unfold slotMask
      rw [show (wi * 64 + bit) % 64 = bit by omega]
    have := h.take (k := wi * 64 + bit) (f := u16 (wi * 64 + bit + 1)) (by omega)
      (by rw [show wi * 64 + bit = 64 * wi + bit by omega]; exact hbit.1)
    rwa [hword, hmask] at this

theorem AtRest.allocSlotLocked (h : AtRest clean s held) : LockedOk clean held s.allocSlotLocked := by
  unfold Span.allocSlotLocked
  split
  . exact h
  apply h.allocSlotLocked_go
  have hle := h.nelems_le
  rw [allocBitsWords_eq]
  omega

end Span

end Central
