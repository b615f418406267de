import Mathlib.Data.List.Nodup

/-! Queues with a head, a tail and a `next` field. `IsQueue` says which list the links stand for. -/

open Function

namespace Queue

variable {G : Type u} {next next' : G → Option G}

def Links (next : G → Option G) : Option G → List G → Prop
  | head, [] => head = none
  | head, g :: l => head = some g ∧ Links next (next g) l

structure IsQueue (next : G → Option G) (head tail : Option G) (l : List G) : Prop where
  links : Links next head l
  tail_eq : tail = l.getLast?
  nodup : l.Nodup

theorem Links.congr (h : Links next head l) (hsame : ∀ g ∈ l, next' g = next g) : Links next' head l := by
  induction l generalizing head with
  | nil => exact h
  | cons g l ih =>
    refine ⟨h.1, ?_⟩
    rw [hsame g List.mem_cons_self]
    exact ih h.2 fun x hx => hsame x (List.mem_cons_of_mem _ hx)

theorem Links.head_eq (h : Links next head l) : head = l.head? := by
  cases l with
  | nil => exact h
  | cons => exact h.1

theorem IsQueue.empty (next : G → Option G) : IsQueue next none none [] :=
  ⟨rfl, rfl, List.nodup_nil⟩

theorem IsQueue.congr (h : IsQueue next head tail l) (hsame : ∀ g ∈ l, next' g = next g) : IsQueue next' head tail l :=
  ⟨h.links.congr hsame, h.tail_eq, h.nodup⟩

theorem IsQueue.head_eq_none_iff (h : IsQueue next head tail l) : head = none ↔ l = [] := by
  rw [h.links.head_eq, List.head?_eq_none_iff]

theorem IsQueue.tail_eq_none_iff (h : IsQueue next head tail l) : tail = none ↔ l = [] := by
  rw [h.tail_eq, List.getLast?_eq_none_iff]

theorem IsQueue.pop (h : IsQueue next (some g) tail l) : ∃ (rest : List G), l = g :: rest ∧
        IsQueue next (next g) (if (next g).isNone then none else tail) rest := by
  rcases l with _ | ⟨x, rest⟩
  . exact nomatch h.links
  obtain ⟨hx, hrest⟩ := h.links
  have hgx := Option.some.inj hx
  subst hgx
  refine ⟨rest, rfl, hrest, ?_, (List.nodup_cons.mp h.nodup).2⟩
  have htail := h.tail_eq
  rw [hrest.head_eq]
  cases rest with
  | nil => rfl
  | cons =>
    rw [htail, List.getLast?_cons_cons]
    rfl

variable [DecidableEq G]

theorem Links.push (h : Links next head l) (hg : g ∉ l) (htail : l.getLast? = some x)
    (hnodup : l.Nodup) : Links (update (update next g none) x (some g)) head (l ++ [g]) := by
  induction l generalizing head with
  | nil => exact nomatch htail
  | cons y l ih =>
    refine ⟨h.1, ?_⟩
    obtain ⟨hy, hnodup⟩ := List.nodup_cons.mp hnodup
    have hgy : g ≠ y := fun heq => hg (heq ▸ List.mem_cons_self)
    cases l with
    | nil =>
      have hxy : y = x := Option.some.inj htail
      subst hxy
      rw [update_self]
      refine ⟨rfl, ?_⟩
      rw [update_of_ne hgy, update_self]
      rfl
    | cons =>
      have hxy : y ≠ x := by
        intro heq
        subst heq
        exact hy (List.mem_of_getLast? htail)
      rw [update_of_ne hxy, update_of_ne (Ne.symm hgy)]
      exact ih h.2 (fun hz => hg (List.mem_cons_of_mem _ hz)) htail hnodup

theorem IsQueue.push_empty (h : IsQueue next head none l) (g : G)
    : IsQueue (update next g none) (some g) (some g) (l ++ [g]) := by
  have hl := h.tail_eq_none_iff.mp rfl
  subst hl
  refine ⟨⟨rfl, ?_⟩, rfl, by simp⟩
  rw [update_self]
  rfl

theorem IsQueue.push (h : IsQueue next head (some x) l) (hg : g ∉ l)
    : IsQueue (update (update next g none) x (some g)) head (some g) (l ++ [g]) := by
  refine ⟨h.links.push hg h.tail_eq.symm h.nodup, by simp, ?_⟩
  rw [List.nodup_append]
  refine ⟨h.nodup, by simp, ?_⟩
  intro a ha b hb heq
  rw [List.mem_singleton] at hb
  subst hb heq
  exact hg ha

theorem Links.unlink (h : Links next head (l1 ++ x :: l2)) (hnodup : (l1 ++ x :: l2).Nodup) : Links
        (match l1.getLast? with
          | none => next
          | some prev => update next prev (next x))
        (if l1 = [] then next x else head) (l1 ++ l2) := by
  induction l1 generalizing head with
  | nil => exact h.2
  | cons y l1 ih =>
    obtain ⟨hy, hrest⟩ := h
    rw [List.cons_append, List.nodup_cons] at hnodup
    obtain ⟨hny, hnodup⟩ := hnodup
    refine ⟨by simpa using hy, ?_⟩
    cases l1 with
    | nil =>
      obtain ⟨_, hl2⟩ := hrest
      simp only [List.getLast?_singleton, update_self]
      apply hl2.congr
      intro z hz
      rw [update_of_ne]
      rintro rfl
      exact hny (List.mem_append_right _ (List.mem_cons_of_mem _ hz))
    | cons z l1 =>
      have hlinks := ih hrest hnodup
      rw [List.getLast?_cons_cons]
      cases hlast : (z :: l1).getLast? with
      | none => simp at hlast
      | some prev =>
        rw [hlast] at hlinks
        dsimp only at hlinks ⊢
        have hne : y ≠ prev := by
          rintro rfl
          exact hny (List.mem_append_left _ (List.mem_of_getLast? hlast))
        rwa [update_of_ne hne]

theorem IsQueue.unlink (h : IsQueue next head tail (l1 ++ x :: l2)) : IsQueue
        (update
          (match l1.getLast? with
            | none => next
            | some prev => update next prev (next x)) x none)
        (if l1 = [] then next x else head) (if tail = some x then l1.getLast? else tail) (l1 ++ l2) := by
  have hnodup := h.nodup
  have hmem : x ∉ l1 ++ l2 := by
    rw [List.nodup_middle, List.nodup_cons] at hnodup
    exact hnodup.1
  constructor
  . apply (h.links.unlink hnodup).congr
    intro y hy
    rw [update_of_ne]
    rintro rfl
    exact hmem hy
  . rw [h.tail_eq]
    cases hl2 : l2.getLast? with
    | none =>
      rw [List.getLast?_eq_none_iff] at hl2
      simp [hl2]
    | some y =>
      have hy : y ≠ x := by
        rintro rfl
        exact hmem (List.mem_append_right _ (List.mem_of_getLast? hl2))
      have hlast : (l1 ++ x :: l2).getLast? = some y := by
        rw [List.getLast?_append, List.getLast?_cons, hl2]
        rfl
      rw [hlast, if_neg (by simpa using hy), List.getLast?_append, hl2]
      rfl
  . rw [List.nodup_middle, List.nodup_cons] at hnodup
    exact hnodup.2

-- Queues that share the `next` field: a chain is the head and the tail of a queue.
structure Chains (next : G → Option G) (chain : C → Option G × Option G) (l : C → List G) : Prop where
  queue : ∀ c, IsQueue next (chain c).1 (chain c).2 (l c)
  apart : ∀ c c', c ≠ c' → (l c).Disjoint (l c')

omit [DecidableEq G] in
theorem Chains.set [DecidableEq C] {chain : C → Option G × Option G} {l : C → List G} (h : Chains next chain l)
    (hq : IsQueue next' p.1 p.2 l') (hnew : ∀ x ∈ l', x ∈ l c ∨ ∀ d, x ∉ l d)
    (hsame : ∀ x, x ∉ l c → x ∉ l' → next' x = next x) : Chains next' (update chain c p) (update l c l') := by
  have hapart : ∀ d, d ≠ c → l'.Disjoint (l d) := by
    intro d hd x hx hxd
    rcases hnew x hx with hxc | hfree
    . exact h.apart c d (Ne.symm hd) hxc hxd
    . exact hfree d hxd
  constructor
  . intro d
    by_cases hd : d = c
    . subst hd
      simpa using hq
    . rw [update_of_ne hd, update_of_ne hd]
      apply (h.queue d).congr
      intro x hx
      exact hsame x (fun hxc => h.apart c d (Ne.symm hd) hxc hx) fun hx' => hapart d hd hx' hx
  . intro d e hde
    by_cases hd : d = c
    . subst hd
      simpa [Ne.symm hde] using hapart e (Ne.symm hde)
    by_cases he : e = c
    . subst he
      rw [update_self, update_of_ne hd]
      exact fun x hx hx' => hapart d hd hx' hx
    . simpa [hd, he] using h.apart d e hde

end Queue
