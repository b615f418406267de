import Goish.Net.Netip.Impl.Prefix

namespace Netip

open Addr

theorem mask6_bit (hi : i < 128) : (mask6 n).getMsbD i = decide (i < n) := by
  rw [Bool.eq_iff_iff, mask6, BitVec.getMsbD_append]
  split_ifs <;> simp [-BitVec.reduceAllOnes] <;> omega

theorem and_mask6_eq_iff {u v : BitVec 128} (hn : n ≤ 128)
    : u &&& mask6 n = v &&& mask6 n ↔ ∀ i < n, u.getMsbD i = v.getMsbD i := by
  constructor
  . intro h i hi
    have hbit := congrArg (BitVec.getMsbD · i) h
    simpa [mask6_bit (show i < 128 by omega), hi] using hbit
  intro h
  apply BitVec.eq_of_getMsbD_eq
  intro i hi
  rw [BitVec.getMsbD_and, BitVec.getMsbD_and, mask6_bit hi]
  by_cases hin : i < n
  . rw [h i hin]
  . simp [hin]

theorem ushiftRight_eq_iff {x y : BitVec w} (hn : n ≤ w)
    : x >>> (w - n) = y >>> (w - n) ↔ ∀ i < n, x.getMsbD i = y.getMsbD i := by
  constructor
  . intro h i hi
    have hs := congrArg (BitVec.getMsbD · (i + (w - n))) h
    simpa [show i + (w - n) < w by omega, show ¬i + (w - n) < w - n by omega] using hs
  intro h
  apply BitVec.eq_of_getMsbD_eq
  intro i hi
  rw [BitVec.getMsbD_ushiftRight, BitVec.getMsbD_ushiftRight]
  by_cases hin : i < w - n
  . simp [hin]
  . rw [h (i - (w - n)) (by omega)]

namespace Addr

variable {ip jp : Addr}

/-- The bit number `i` of the address, counted from the first one of its family. -/
def bit (ip : Addr) (i : Nat) : Bool :=
  ip.addr.getMsbD (if ip.is4 then i + 96 else i)

theorem ext_bit (hz : ip.z = jp.z) (h : ∀ i < if ip.is4 then 32 else 128, ip.bit i = jp.bit i) : ip = jp := by
  refine Addr.ext (BitVec.eq_of_getMsbD_eq fun i hi => ?_) hz
  unfold bit is4 at h
  rw [← hz] at h
  by_cases h4 : ip.z = .z4
  . have hmapped := (ip.mapped h4).trans (jp.mapped (hz ▸ h4)).symm
    by_cases hlow : i < 96
    . exact (ushiftRight_eq_iff (n := 96) (by omega)).mp hmapped i hlow
    . simpa [h4, show i - 96 + 96 = i by omega] using h (i - 96) (by simp [h4]; omega)
  . simpa [h4] using h i (by simpa [h4])

theorem bitLen_le : ip.bitLen ≤ if ip.is4 then 32 else 128 := by
  unfold bitLen is4
  split_ifs <;> simp_all

theorem eq_default (hi : ¬ip.isValid) : ip = .default := by
  have hz : ip.z = .z0 := by simpa [isValid] using hi
  exact Addr.ext (ip.zero hz) hz

theorem withoutZone_eq (hz : ip.hasZone = false) : ip.withoutZone = ip := by
  unfold hasZone at hz
  unfold withoutZone is6
  split
  . rfl
  . exact Addr.ext rfl (by cases h : ip.z <;> simp_all)

end Addr

namespace Prefix

/-- The addresses that the prefix stands for: those of its family that start with its first `bits` bits. -/
def Denotes (p : Prefix) (ip : Addr) : Prop :=
  p.isValid ∧ ip.isValid ∧ ip.hasZone = false ∧ p.ip.bitLen = ip.bitLen
    ∧ ∀ i < p.bits.toNat, p.ip.bit i = ip.bit i

variable {p q : Prefix} {ip : Addr}

theorem bits_le : p.bits ≤ if p.ip.is4 then 32 else 128 := by
  have hle := p.le.trans (Int.add_le_add_right bitLen_le 1)
  unfold bits
  omega

theorem isValid_iff : p.isValid ↔ 0 ≤ p.bits := by
  simp [isValid, bits]
  omega

theorem contains_iff
    : p.contains ip ↔ p.isValid ∧ ip.hasZone = false ∧ p.ip.is4 = ip.is4 ∧
        ∀ i < p.bits.toNat, p.ip.bit i = ip.bit i := by
  unfold contains
  by_cases h : p.isValid ∧ ip.hasZone = false ∧ p.ip.is4 = ip.is4
  . obtain ⟨hv, hz, h4⟩ := h
    have h0 := isValid_iff.mp hv
    have hle := p.bits_le
    cases hp : ip.is4 with
    | false =>
      rw [h4.trans hp, if_neg (by decide)] at hle
      simp [hv, hz, h4, hp, bit, and_mask6_eq_iff (show p.bits.toNat ≤ 128 by omega)]
    | true =>
      rw [h4.trans hp, if_pos rfl] at hle
      simp only [hv, hz, h4.trans hp, true_and]
      rw [if_neg (by decide), if_neg (by decide), if_pos trivial]
      split_ifs with h32 h0
      . have hz : p.ip.z = ip.z := (of_decide_eq_true (h4.trans hp)).trans (of_decide_eq_true hp).symm
        rw [decide_eq_true_iff]
        exact ⟨fun h => h ▸ fun _ _ => rfl, fun h => ext_bit hz (by simpa [h4, hp, h32] using h)⟩
      . simp [show p.bits = 0 by omega]
      . rw [decide_eq_true_iff, show (32 - p.bits).toNat = 32 - p.bits.toNat by omega, ushiftRight_eq_iff (by omega)]
        simp [bit, BitVec.getMsbD_setWidth, h4, hp]
  . grind

theorem denotes_iff : p.Denotes ip ↔ p.contains ip ∧ p.ip.isValid ∧ ip.isValid := by
  have hlen : p.ip.isValid ∧ ip.isValid ∧ p.ip.is4 = ip.is4 ↔ ip.isValid ∧ p.ip.bitLen = ip.bitLen := by
    grind [Addr.bitLen, Addr.isValid, Addr.is4]
  rw [contains_iff, Denotes]
  tauto

theorem contains_ip (hv : p.isValid) : p.contains p.ip :=
  contains_iff.mpr ⟨hv, p.zone, rfl, fun _ _ => rfl⟩

theorem prefixFrom_eq (h0 : 0 ≤ b) (hb : b ≤ ip.bitLen) (hz : ip.hasZone = false)
    : (prefixFrom ip b).bits = b ∧ (prefixFrom ip b).ip = ip := by
  unfold prefixFrom bits
  rw [dif_neg (by omega)]
  exact ⟨by dsimp only; omega, withoutZone_eq hz⟩

theorem masked_eq (hv : p.isValid) (hi : p.ip.isValid)
    : p.masked.bits = p.bits ∧ p.masked.ip.z = p.ip.z
        ∧ ∀ i < if p.ip.is4 then 32 else 128, p.masked.ip.bit i = (p.ip.bit i && decide (i < p.bits.toNat)) := by
  have h0 := isValid_iff.mp hv
  have hle := p.bits_le
  have hz : p.ip.z ≠ .z0 := by simpa [Addr.isValid] using hi
  have hlen : p.bits ≤ p.ip.bitLen := Int.sub_right_le_of_le_add p.le
  unfold masked Addr.toPrefix
  rw [dif_neg (by omega), if_neg hz, dif_neg (by omega)]
  generalize_proofs h1 h2
  obtain ⟨hb, hip⟩ := @prefixFrom_eq ⟨_, p.ip.z, h1, h2⟩ p.bits h0 hlen p.zone
  dsimp only
  rw [hip]
  refine ⟨hb, rfl, fun i hi => ?_⟩
  change (p.ip.addr &&& mask6 _).getMsbD (if p.ip.is4 then i + 96 else i) = _
  rw [BitVec.getMsbD_and, mask6_bit (by split_ifs at * <;> omega), bit]
  split_ifs <;> simp

theorem contains_masked (hv : p.isValid) (hi : p.ip.isValid)
    : p.masked.contains ip ↔ p.contains ip := by
  obtain ⟨hb, hz, hbit⟩ := masked_eq hv hi
  have hle := p.bits_le
  rw [contains_iff, contains_iff, isValid_iff, isValid_iff, hb, is4, hz]
  grind [is4]

theorem masked_eq_iff (hp : p.isValid) (hq : q.isValid) (hpi : p.ip.isValid) (hqi : q.ip.isValid)
    (h4 : p.ip.is4 = q.ip.is4) (hb : p.bits = q.bits)
    : p.masked = q.masked ↔ p.contains q.ip := by
  constructor
  . intro h
    rw [← contains_masked hp hpi, h, contains_masked hq hqi]
    exact contains_ip hq
  intro h
  obtain ⟨hpb, hpz, hpbit⟩ := masked_eq hp hpi
  obtain ⟨hqb, hqz, hqbit⟩ := masked_eq hq hqi
  have hz : p.masked.ip.z = q.masked.ip.z := by
    have hpzone := p.zone
    have hqzone := q.zone
    rw [hpz, hqz]
    unfold hasZone at hpzone hqzone
    unfold is4 at h4
    unfold Addr.isValid at hpi hqi
    cases hpz : p.ip.z <;> cases hqz : q.ip.z <;> simp_all
  refine Prefix.ext (Addr.ext_bit hz fun i hi => ?_) (by unfold bits at hb hpb hqb; omega)
  rw [Addr.is4, hpz] at hi
  rw [hpbit i hi, hqbit i (h4 ▸ hi), hb]
  have := (contains_iff.mp h).2.2.2 i
  grind

theorem exists_contains_iff (hq : q.isValid) (hle : p.bits ≤ q.bits)
    : (∃ ip, p.contains ip ∧ q.contains ip) ↔ p.contains q.ip := by
  constructor
  . rintro ⟨ip, hpc, hqc⟩
    obtain ⟨hp, _, h4, hbit⟩ := contains_iff.mp hpc
    obtain ⟨_, _, h4', hbit'⟩ := contains_iff.mp hqc
    refine contains_iff.mpr ⟨hp, q.zone, h4.trans h4'.symm, fun i hi => ?_⟩
    exact (hbit i hi).trans (hbit' i (by omega)).symm
  . exact fun h => ⟨q.ip, h, contains_ip hq⟩

theorem overlaps_iff (h : p.isValid → p.bits = q.bits → p.ip.is4 = q.ip.is4 → p.ip.isValid ∧ q.ip.isValid)
    : p.overlaps q ↔ ∃ ip, p.contains ip ∧ q.contains ip := by
  unfold overlaps
  by_cases hv : p.isValid ∧ q.isValid ∧ p.ip.is4 = q.ip.is4
  . obtain ⟨hp, hq, h4⟩ := hv
    simp only [hp, hq, h4, Bool.not_true, Bool.or_self, Bool.false_eq_true, ne_eq, not_true_eq_false, if_false]
    by_cases hlt : p.bits > q.bits
    . rw [if_pos hlt]
      simp only [show q.bits ≠ p.bits by omega, if_false]
      rw [← exists_contains_iff hp (by omega)]
      simp only [and_comm]
    rw [if_neg hlt]
    dsimp only
    rw [exists_contains_iff hq (by omega)]
    split_ifs with hb
    . rw [decide_eq_true_iff, masked_eq_iff hp hq (h hp hb h4).1 (h hp hb h4).2 h4 hb]
    . rfl
  . have hn : ¬∃ ip, p.contains ip ∧ q.contains ip := by
      simp only [contains_iff]
      grind
    grind

/-- The code takes a prefix of the zero address for a valid one, and the zero address for an IPv6 address. -/
theorem denotation_iff (p q : Prefix)
    : (p.isValid → p.ip.isValid) ∧ (∀ ip, p.contains ip ↔ p.Denotes ip)
          ∧ (∀ ip, p.masked.contains ip ↔ p.contains ip)
          ∧ (p.overlaps q ↔ ∃ ip, p.contains ip ∧ q.contains ip)
        ↔ (p.isValid → p.ip.isValid ∧ (p.ip.is4 = false → ∃ i < p.bits.toNat, p.ip.bit i)) := by
  have hdefault : p.contains .default ↔ p.isValid ∧ p.ip.is4 = false ∧ ∀ i < p.bits.toNat, ¬p.ip.bit i := by
    simp [contains_iff, Addr.bit, Addr.default, Addr.hasZone, Addr.is4]
  constructor
  . rintro ⟨hvalid, hc, -, -⟩ hv
    refine ⟨hvalid hv, fun h4 => ?_⟩
    by_contra hzero
    have hd := hdefault.mpr ⟨hv, h4, by simpa using hzero⟩
    exact Bool.false_ne_true (denotes_iff.mp ((hc _).mp hd)).2.2
  intro h
  have hn : ¬p.contains .default := by grind
  refine ⟨fun hv => (h hv).1, fun ip => ?_, fun ip => ?_, overlaps_iff fun hv hb h4 => ⟨(h hv).1, ?_⟩⟩
  . rw [denotes_iff]
    refine ⟨fun hc => ⟨hc, (h (contains_iff.mp hc).1).1, ?_⟩, And.left⟩
    by_contra hi
    exact hn (eq_default hi ▸ hc)
  . by_cases hv : p.isValid
    . exact contains_masked hv (h hv).1
    . have hb : p.bits < 0 := by rwa [isValid_iff, not_le] at hv
      simp [masked, toPrefix, hb, contains, hv, show Prefix.default.isValid = false from rfl]
  by_contra hi
  have hle : q.bits ≤ q.ip.bitLen := Int.sub_right_le_of_le_add q.le
  rw [eq_default hi] at hle h4
  replace hle : q.bits ≤ 0 := hle
  exact hn (contains_iff.mpr ⟨hv, rfl, h4, fun i hi => by omega⟩)

theorem prefixFrom_default : (prefixFrom .default 0).isValid ∧ ¬(prefixFrom .default 0).ip.isValid := by
  decide

end Prefix

end Netip
