import Goish.Compress.Bzip2.Impl.Bzip2

open Option

namespace Bzip2

/-- The first `n` bytes of a block in the order of its links. -/
def follow (tt : List UInt32) : Nat → UInt32 → Option (List UInt8)
  | 0, _ => some []
  | n + 1, tPos => do
    let link ← tt[tPos.toNat]?
    let rest ← follow tt n (link >>> 8)
    return link.toUInt8 :: rest

/-- The run-length decoding, where `run` is the byte that was written last and how often it stands in a row. After a
count nothing stands in a row, but with `carry` the byte before a count of zero does. -/
def decode (carry : Bool) : Option (UInt8 × Nat) → List UInt8 → List UInt8
  | _, [] => []
  | some (c, 4), b :: l =>
    List.replicate b.toNat c ++ decode carry (if carry && b == 0 then some (c, 1) else none) l
  | some (c, n), b :: l => b :: decode carry (some (b, if c = b then n + 1 else 1)) l
  | none, b :: l => b :: decode carry (some (b, 1)) l

theorem decode_some (hn : n ≠ 4)
    : decode carry (some (c, n)) (b :: l) = b :: decode carry (some (b, if c = b then n + 1 else 1)) l := by
  rwa [decode]

namespace Reader

attribute [local simp] popRepeat advance count literal

variable {s : Reader}

/-- The reader stands in the run `run` and writes no repeats. -/
def InRun (s : Reader) : Option (UInt8 × Nat) → Prop
  | none => s.lastByte = -1 ∧ s.byteRepeats = 0
  | some (c, n) => s.lastByte = c.toNat ∧ s.byteRepeats + 1 = n ∧ n ≤ 4

def Owes (s : Reader) (out : List UInt8) : Prop :=
  ∃ rest, follow s.preRLE (s.preRLE.length - s.preRLEUsed) s.tPos = some rest ∧
    ((∃ c : UInt8, 0 < s.repeats ∧ s.byteRepeats = 0 ∧ s.lastByte = c.toNat ∧
        out = List.replicate s.repeats c ++ decode true none rest) ∨
      s.repeats = 0 ∧ ∃ run, s.InRun run ∧ out = decode true run rest)

theorem Owes.eq_nil (h : s.Owes out) (hmore : s.more = false) : out = [] := by
  simp only [more, Bool.or_eq_false_iff, decide_eq_false_iff_not] at hmore
  obtain ⟨_, hrest, _ | ⟨_, _, _, hout⟩⟩ := h
  . omega
  rw [Nat.sub_eq_zero_of_le (by omega)] at hrest
  cases hrest
  rw [hout, decode]

theorem Owes.popRepeat (h : s.Owes out) (hpos : 0 < s.repeats)
    : ∃ c rest, out = c :: rest ∧ UInt8.ofInt s.lastByte = c ∧ s.popRepeat.Owes rest := by
  obtain ⟨rest, hrest, ⟨c, _, hbyte, hlast, hout⟩ | _⟩ := h
  . refine ⟨c, List.replicate (s.repeats - 1) c ++ decode true none rest, ?_, ?_, rest, hrest, ?_⟩
    . rw [hout, ← List.cons_append, ← List.replicate_succ, Nat.sub_add_cancel hpos]
    . rw [hlast, UInt8.ofInt, ← UInt8.toNat_inj]
      have := c.toNat_lt
      simp only [UInt8.toNat_ofNat']
      omega
    . by_cases hone : s.repeats = 1
      . exact .inr ⟨by simp [hone], none, ⟨by simp [hone], hbyte⟩, by simp [hone]⟩
      . exact .inl ⟨c, by simp; omega, hbyte, by simp [hone, hlast], rfl⟩
  . omega

/-- What is left to deliver after the next byte of the block. -/
theorem Owes.take (h : s.Owes out) (hmore : s.more = true) (hzero : ¬0 < s.repeats)
    : ∃ link, s.preRLE[s.tPos.toNat]? = some link ∧
        if s.byteRepeats = 3 then
          ((s.advance link).count link.toUInt8).Owes out
        else
          ∃ rest, out = link.toUInt8 :: rest ∧ ((s.advance link).literal link.toUInt8).Owes rest := by
  simp only [more, hzero, decide_false, Bool.false_or, decide_eq_true_eq] at hmore
  obtain ⟨rest, hrest, ⟨c, _⟩ | ⟨hrep, run, hrun, hout⟩⟩ := h
  . omega
  rw [show s.preRLE.length - s.preRLEUsed = s.preRLE.length - (s.preRLEUsed + 1) + 1 by omega, follow] at hrest
  simp only [bind_eq_bind, bind_eq_some_iff, pure_def, Option.some.injEq] at hrest
  obtain ⟨link, hlink, rest, hrest, hcons⟩ := hrest
  subst hcons
  refine ⟨link, hlink, ?_⟩
  split
  . next hthree =>
    obtain _ | ⟨c, n⟩ := run
    . have := hrun.2
      omega
    obtain ⟨hlast, hn, _⟩ := hrun
    rw [hthree] at hn
    subst hn
    refine ⟨rest, hrest, ?_⟩
    rw [hout, decode]
    by_cases hb : link.toUInt8 = 0
    . exact .inr ⟨by simp [hb], some (c, 1), ⟨hlast, by simp⟩, by simp [hb]⟩
    . have hne : link.toUInt8.toNat ≠ 0 := fun h0 => hb (UInt8.toNat_inj.mp h0)
      exact .inl ⟨c, Nat.pos_of_ne_zero hne, rfl, hlast, by simp [hb]⟩
  . next hthree =>
    obtain _ | ⟨c, n⟩ := run
    . refine ⟨_, by rw [hout, decode], rest, hrest, .inr ⟨hrep, some _, ⟨rfl, ?_⟩, rfl⟩⟩
      simp [hrun.1]
      omega
    obtain ⟨hlast, _⟩ := hrun
    have hne : n ≠ 4 := by omega
    refine ⟨_, by rw [hout, decode_some hne], rest, hrest, .inr ⟨hrep, some _, ⟨rfl, ?_⟩, rfl⟩⟩
    have heq : s.lastByte = (link.toUInt8.toNat : Int) ↔ c = link.toUInt8 := by
      rw [hlast, Int.natCast_inj, UInt8.toNat_inj]
    simp only [literal, advance, heq]
    split <;> omega

theorem Owes.go (h : s.Owes out) (room : Nat) (hfuel : s.preRLE.length - s.preRLEUsed + room ≤ fuel)
    : ∃ s', readFromBlock.go fuel room s = some (out.take room, s') ∧ s'.Owes (out.drop room) := by
  induction fuel generalizing s out room with
  | zero =>
    have hroom : room = 0 := by omega
    subst hroom
    exact ⟨s, rfl, h⟩
  | succ _ ih =>
    cases room with
    | zero => exact ⟨s, rfl, h⟩
    | succ room =>
      unfold readFromBlock.go
      split
      . next hmore =>
        have hnil := h.eq_nil (by simpa using hmore)
        subst hnil
        exact ⟨s, rfl, h⟩
      next hmore =>
      split
      . next hpos =>
        obtain ⟨_, _, hout, hc, hnext⟩ := h.popRepeat hpos
        obtain ⟨s', hgo, howes⟩ := ih hnext room (by simp; omega)
        refine ⟨s', ?_, hout ▸ howes⟩
        rw [hgo, hc, hout]
        rfl
      next hzero =>
      have hmore : s.more = true := by simpa using hmore
      obtain ⟨_, hlink, hnext⟩ := h.take hmore hzero
      simp only [more, hzero, decide_false, Bool.false_or, decide_eq_true_eq] at hmore
      simp only [hlink, bind_eq_bind, bind_some]
      split
      . next hthree =>
        rw [if_pos hthree] at hnext
        exact ih hnext (room + 1) (by simp; omega)
      next hthree =>
      rw [if_neg hthree] at hnext
      obtain ⟨_, hout, hnext⟩ := hnext
      obtain ⟨s', hgo, howes⟩ := ih hnext room (by simp; omega)
      refine ⟨s', ?_, hout ▸ howes⟩
      rw [hgo, hout]
      rfl

theorem Owes.reads (h : s.Owes out) (sizes : List Nat) : s.reads sizes = some (out.take sizes.sum) := by
  induction sizes generalizing s out with
  | nil => rfl
  | cons room _ ih =>
    obtain ⟨_, hgo, howes⟩ := h.go room (Nat.le_refl _)
    unfold Reader.reads readFromBlock
    simp only [hgo, ih howes, bind_eq_bind, bind_some, pure_def]
    rw [List.sum_cons, List.take_add]

def chain (l : List UInt8) : List UInt32 :=
  l.mapIdx fun i b => .ofNat ((i + 1) * 256 + b.toNat)

end Reader

end Bzip2
