import Goish.Encoding.Csv.Impl.Writer

/-! The text of a list of records, where a field may stand in quotes, its own quotes then doubled. -/

open List

namespace Csv

def doubled (f : List UInt8) : List UInt8 :=
  f.flatMap fun b => if b = quote then [quote, quote] else [b]

structure Plain (sep f : List UInt8) : Prop where
  quote : quote ∉ f
  lf : lf ∉ f
  sep : ¬sep <:+: f

def fieldText (quoted : List UInt8 → Bool) (f : List UInt8) : List UInt8 :=
  if quoted f then quote :: doubled f ++ [quote] else f

def recordText (quoted : List UInt8 → Bool) (sep : List UInt8) : List (List UInt8) → List UInt8
  | [] => [lf]
  | [f] => fieldText quoted f ++ [lf]
  | f :: fs => fieldText quoted f ++ sep ++ recordText quoted sep fs

theorem recordText_cons_cons (quoted : List UInt8 → Bool) (sep f g : List UInt8) (fs : List (List UInt8))
    : recordText quoted sep (f :: g :: fs) = fieldText quoted f ++ sep ++ recordText quoted sep (g :: fs) :=
  rfl

def ends (useCRLF : Bool) (t : List UInt8) : List UInt8 :=
  t.flatMap fun b => if b = lf ∧ useCRLF then [cr, lf] else [b]

variable {useCRLF : Bool} {t u : List UInt8}

@[simp]
theorem ends_nil : ends useCRLF [] = [] :=
  rfl

theorem ends_append : ends useCRLF (t ++ u) = ends useCRLF t ++ ends useCRLF u :=
  flatMap_append

theorem ends_of_not_mem (h : lf ∉ t) : ends useCRLF t = t := by
  induction t with
  | nil => rfl
  | cons b t ih =>
    rw [mem_cons, not_or] at h
    have hb : ¬(b = lf ∧ useCRLF = true) := fun hand => h.1 hand.1.symm
    rw [ends, flatMap_cons, if_neg hb, singleton_append]
    exact congrArg _ (ih h.2)

theorem ends_cons_lf (t : List UInt8)
    : ends useCRLF (lf :: t) = (if useCRLF then [cr] else []) ++ lf :: ends useCRLF t := by
  cases useCRLF <;> rfl

theorem length_le_ends (t : List UInt8) : t.length ≤ (ends useCRLF t).length := by
  induction t with
  | nil => exact Nat.le_refl _
  | cons b t ih =>
    rw [ends, flatMap_cons, length_append, length_cons]
    unfold ends at ih
    split
    . rw [length_cons, length_singleton]
      omega
    . rw [length_singleton]
      omega

@[simp]
theorem doubled_nil : doubled [] = [] :=
  rfl

theorem doubled_append (f g : List UInt8) : doubled (f ++ g) = doubled f ++ doubled g :=
  flatMap_append

theorem doubled_of_not_mem (h : quote ∉ f) : doubled f = f := by
  induction f with
  | nil => rfl
  | cons b f ih =>
    rw [mem_cons, not_or] at h
    rw [doubled, flatMap_cons, if_neg (Ne.symm h.1), singleton_append]
    exact congrArg _ (ih h.2)

theorem doubled_quote (f : List UInt8) : doubled (quote :: f) = quote :: quote :: doubled f :=
  rfl

theorem mem_doubled (hb : b ∈ doubled f) : b ∈ f := by
  unfold doubled at hb
  rw [mem_flatMap] at hb
  obtain ⟨_, hx, hmem⟩ := hb
  split at hmem
  . next heq =>
    simp only [mem_cons, not_mem_nil, or_false, or_self] at hmem
    rwa [hmem, ← heq]
  . rw [mem_singleton] at hmem
    rwa [hmem]

end Csv
