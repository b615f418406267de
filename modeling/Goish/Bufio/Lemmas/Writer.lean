import Goish.Bufio.Impl.Writer
import Goish.Unicode.Utf8.Lemmas.Utf8

open Utf8

namespace Bufio

namespace Writer

def written (b : Writer) : List UInt8 :=
  b.out ++ b.buf

theorem written_flush (b : Writer) : b.flush.out = b.written := rfl

attribute [local simp] written

theorem written_flush' (b : Writer) : b.flush.written = b.written := by
  simp [flush]

theorem written_writeByte (b : Writer) (c : UInt8) : (b.writeByte c).written = b.written ++ [c] := by
  unfold writeByte
  split <;> simp [flush]

theorem written_writeString_go (fuel : Nat) (b : Writer) (s : List UInt8)
    : (writeString.go fuel b s).written = b.written ++ s := by
  induction fuel generalizing b s with
  | zero => simp [writeString.go]
  | succ _ ih =>
    rw [writeString.go]
    split
    . rw [ih, written_flush']
      simp
    . simp

theorem written_writeString (b : Writer) (s : List UInt8) : (b.writeString s).written = b.written ++ s :=
  written_writeString_go _ b s

theorem written_write (b : Writer) (p : List UInt8) : (b.write p).written = b.written ++ p := by
  have hgo : ∀ (fuel : Nat) (b : Writer) (p : List UInt8), (write.go fuel b p).written = b.written ++ p := by
    intro fuel
    induction fuel with
    | zero =>
      intro b p
      simp [write.go]
    | succ _ ih =>
      intro b p
      rw [write.go]
      split
      . split
        . next hbuf =>
          rw [ih]
          simp [hbuf]
        . rw [ih, written_flush']
          simp
      . simp
  exact hgo _ b p

theorem written_writeRune (b : Writer) (h : Scalar r) : (b.writeRune r).written = b.written ++ encode r := by
  have hencode := encodeRune_eq h
  have hscalar := h
  unfold Scalar at hscalar
  have htouint : touint32 r = r := by
    unfold touint32
    omega
  unfold writeRune runeSelf
  rw [htouint]
  split
  . next hlt =>
    have hbyte : [tobyte (r : ℤ)] = encode r := by
      rw [← hencode]
      unfold encodeRune
      rw [htouint, if_pos]
      exact Nat.le_of_lt_succ hlt
    rw [written_writeByte, hbyte]
  dsimp only
  have hflush : (if b.available < 4 then b.flush else b).written = b.written := by
    split
    . exact written_flush' b
    . rfl
  rw [hencode, ← hflush]
  generalize (if b.available < 4 then b.flush else b) = b'
  split
  . exact written_writeString b' _
  . simp

end Writer

end Bufio
