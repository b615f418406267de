import Mathlib.Logic.Function.Basic

/-! Linked lists through an array or a heap: `next` and `prev` map a node to its neighbours, and `nil` is no node. -/

open List Function

namespace LinkedList

variable {α : Type u} {next next' prev prev' : α → α}

def Chain (next : α → α) (a : α) : List α → α → Prop
  | [], b => b = a
  | x :: l, b => a = x ∧ Chain next (next x) l b

def Seg (next prev : α → α) (p a : α) : List α → α → α → Prop
  | [], q, b => q = p ∧ b = a
  | x :: l, q, b => a = x ∧ prev x = p ∧ Seg next prev x (next x) l q b

namespace Chain

theorem congr : ∀ {a b : α}, Chain next a l b → (∀ x ∈ l, next' x = next x) →
    Chain next' a l b := by
  induction l with
  | nil =>
    intro a b h _
    exact h
  | cons x l ih =>
    intro a b h hn
    refine ⟨h.1, ?_⟩
    rw [hn x (by simp)]
    apply ih h.2
    intro y hy
    exact hn y (by simp [hy])

theorem push (h : Chain next a l b) (hx : x ∉ l) (hnext : next' x = a)
    (hother : ∀ y, y ≠ x → next' y = next y) : Chain next' x (x :: l) b := by
  refine ⟨rfl, ?_⟩
  rw [hnext]
  apply h.congr
  intro y hy
  apply hother
  intro heq
  exact hx (heq ▸ hy)

end Chain

namespace Seg

theorem congr : ∀ {p a q b : α}, Seg next prev p a l q b →
    (∀ x ∈ l, next' x = next x) → (∀ x ∈ l, prev' x = prev x) → Seg next' prev' p a l q b := by
  induction l with
  | nil =>
    intro p a q b h _ _
    exact h
  | cons x l ih =>
    intro p a q b h hn hp
    refine ⟨h.1, ?_, ?_⟩
    . rw [hp x (by simp)]
      exact h.2.1
    rw [hn x (by simp)]
    apply ih h.2.2
    . intro y hy
      exact hn y (by simp [hy])
    . intro y hy
      exact hp y (by simp [hy])

theorem append_iff : ∀ {p a q b : α}, Seg next prev p a (l1 ++ l2) q b ↔
    ∃ (m c : α), Seg next prev p a l1 m c ∧ Seg next prev m c l2 q b := by
  induction l1 with
  | nil =>
    intro p a q b
    constructor
    . intro h
      exact ⟨p, a, ⟨rfl, rfl⟩, h⟩
    . intro ⟨m, c, h1, h2⟩
      rwa [h1.1, h1.2] at h2
  | cons _ _ ih =>
    intro p a q b
    constructor
    . intro h
      obtain ⟨m, c, h1, h2⟩ := ih.mp h.2.2
      exact ⟨m, c, ⟨h.1, h.2.1, h1⟩, h2⟩
    . intro ⟨m, c, h1, h2⟩
      exact ⟨h1.1, h1.2.1, ih.mpr ⟨m, c, h1.2.2, h2⟩⟩

theorem split_iff {p a q b x : α} : Seg next prev p a (l1 ++ x :: l2) q b ↔
    Seg next prev p a l1 (prev x) x ∧ Seg next prev x (next x) l2 q b := by
  rw [append_iff]
  constructor
  . intro ⟨m, c, h1, h2, h3, h4⟩
    subst h2 h3
    exact ⟨h1, h4⟩
  . intro ⟨h1, h2⟩
    exact ⟨prev x, x, h1, rfl, rfl, h2⟩

theorem reverse : ∀ {p a q b : α}, Seg next prev p a l q b → Seg prev next b q l.reverse a p := by
  induction l with
  | nil => exact fun h => ⟨h.2.symm, h.1.symm⟩
  | cons x l ih =>
    intro p a q b h
    rw [reverse_cons, append_iff]
    exact ⟨next x, x, ih h.2.2, rfl, rfl, h.1, h.2.1.symm⟩

theorem first_mem (h : Seg next prev p a l q b) : a = b ∨ a ∈ l := by
  cases l with
  | nil => exact .inl h.2.symm
  | cons => exact .inr (h.1 ▸ mem_cons_self)

theorem last_mem (h : Seg next prev p a l q b) : q = p ∨ q ∈ l :=
  h.reverse.first_mem.imp_right mem_reverse.mp

theorem first_eq_iff (h : Seg next prev p a l q b) (hb : b ∉ l) : a = b ↔ l = [] := by
  cases l with
  | nil => exact iff_of_true h.2.symm rfl
  | cons x l => exact iff_of_false (fun heq => hb (heq ▸ h.1 ▸ mem_cons_self)) (cons_ne_nil x l)

theorem head_eq (h : Seg next prev p a l q b) : (l.head?).getD b = a := by
  cases l with
  | nil => exact h.2
  | cons => exact h.1.symm

theorem getLast_eq (h : Seg next prev p a l q b) : (l.getLast?).getD p = q := by
  rw [← head?_reverse]
  exact h.reverse.head_eq

theorem prev_head (h : Seg next prev p a l q b) (hb : prev b = q) : prev a = p := by
  cases l with
  | nil => rw [← h.1, ← h.2, hb]
  | cons => rw [h.1, h.2.1]

section

variable [DecidableEq α] {p a q b : α} {l : List α} (h : Seg next prev p a l q b) (hnodup : l.Nodup)
include h hnodup

theorem relink (hb : b ∉ l) (hn : ∀ x ∈ l, next' x = next x) (hp : ∀ x ∈ l, prev' x = if x = a then p' else prev x)
    : Seg next' prev' p' a l (if a = b then p' else q) b := by
  cases l with
  | nil => exact ⟨if_pos h.2.symm, h.2⟩
  | cons x l =>
    obtain ⟨rfl, _, h⟩ := h
    rw [if_neg (show a ≠ b from fun heq => hb (heq ▸ mem_cons_self))]
    refine ⟨rfl, ?_, ?_⟩
    . rw [hp a mem_cons_self, if_pos rfl]
    rw [hn a mem_cons_self]
    apply h.congr (fun y hy => hn y (mem_cons_of_mem a hy))
    intro y hy
    rw [hp y (mem_cons_of_mem a hy), if_neg]
    rintro rfl
    exact (nodup_cons.mp hnodup).1 hy

theorem relink_last (hp : p ∉ l) (hn : ∀ x ∈ l, next' x = if x = q then b' else next x) (hprev : ∀ x ∈ l, prev' x = prev x)
    : Seg next' prev' p (if q = p then b' else a) l q b' := by
  have := (h.reverse.relink ((reverse_perm l).nodup_iff.mpr hnodup) (mt mem_reverse.mp hp)
    (fun x hx => hprev x (mem_reverse.mp hx)) fun x hx => hn x (mem_reverse.mp hx)).reverse
  rwa [reverse_reverse] at this

end

end Seg

structure IsList (next prev : α → α) (nil head tail : α) (l : List α) : Prop where
  seg : Seg next prev nil head l tail nil
  nodup : l.Nodup
  nil_not_mem : nil ∉ l

namespace IsList

variable {nil head tail : α} {l : List α}

theorem empty : IsList next prev nil nil nil [] :=
  ⟨⟨rfl, rfl⟩, nodup_nil, by simp⟩

variable (h : IsList next prev nil head tail l)
include h

theorem congr (hn : ∀ x ∈ l, next' x = next x) (hp : ∀ x ∈ l, prev' x = prev x) : IsList next' prev' nil head tail l :=
  ⟨h.seg.congr hn hp, h.nodup, h.nil_not_mem⟩

theorem head_mem (hne : head ≠ nil) : head ∈ l :=
  h.seg.first_mem.resolve_left hne

theorem sides (hx : x ∈ l) : ∃ (l1 l2 : List α), l = l1 ++ x :: l2
    ∧ Seg next prev nil head l1 (prev x) x ∧ Seg next prev x (next x) l2 tail nil := by
  obtain ⟨l1, l2, heq⟩ := append_of_mem hx
  have hseg := h.seg
  rw [heq, Seg.split_iff] at hseg
  exact ⟨l1, l2, heq, hseg⟩

theorem not_mem_sides (heq : l = l1 ++ x :: l2)
    : (x ∉ l1 ∧ x ∉ l2 ∧ nil ∉ l1 ∧ nil ∉ l2) ∧ l1.Nodup ∧ l2.Nodup ∧ ∀ y ∈ l1, y ∉ l2 := by
  have hnodup := h.nodup
  have hnil := h.nil_not_mem
  rw [heq] at hnodup hnil
  obtain ⟨hx, hnodup⟩ := nodup_cons.mp (perm_middle.nodup_iff.mp hnodup)
  rw [nodup_append] at hnodup
  rw [mem_append, not_or] at hx hnil
  exact ⟨⟨hx.1, hx.2, hnil.1, fun hmem => hnil.2 (mem_cons_of_mem x hmem)⟩, hnodup.1, hnodup.2.1,
    fun y hy hy2 => hnodup.2.2 y hy y hy2 rfl⟩

theorem prev_eq_nil_iff (hx : x ∈ l) : prev x = nil ↔ head = x := by
  obtain ⟨l1, _, heq, h1, _⟩ := h.sides hx
  obtain ⟨⟨hx1, _, hnil1, _⟩, _⟩ := h.not_mem_sides heq
  rw [h1.first_eq_iff hx1, h1.reverse.first_eq_iff (mt mem_reverse.mp hnil1), reverse_eq_nil_iff]

theorem prev_mem (hx : x ∈ l) (hne : prev x ≠ nil) : prev x ∈ l := by
  obtain ⟨l1, _, heq, h1, _⟩ := h.sides hx
  rw [heq]
  exact mem_append_left _ (h1.last_mem.resolve_left hne)

theorem next_mem (hx : x ∈ l) (hne : next x ≠ nil) : next x ∈ l := by
  obtain ⟨_, l2, heq, _, h2⟩ := h.sides hx
  rw [heq]
  exact mem_append_right _ (mem_cons_of_mem x (h2.first_mem.resolve_left hne))

theorem pushFront [DecidableEq α] (hx : x ∉ l) (hne : x ≠ nil) (hnext : next' x = head) (hprev : prev' x = nil)
    (hn : ∀ y ∈ l, next' y = next y) (hp : ∀ y ∈ l, y ≠ head → prev' y = prev y) (hhead : head ≠ nil → prev' head = x)
    : ∃ (tail' : α), IsList next' prev' nil x tail' (x :: l) := by
  have hp' : ∀ y ∈ l, prev' y = if y = head then x else prev y := by
    intro y hy
    split
    . next heq => exact heq ▸ hhead fun hnil => h.nil_not_mem (hnil ▸ heq ▸ hy)
    . next hne => exact hp y hy hne
  have hseg := h.seg.relink h.nodup h.nil_not_mem hn hp'
  rw [← hnext] at hseg
  refine ⟨_, ⟨rfl, hprev, hseg⟩, nodup_cons.mpr ⟨hx, h.nodup⟩, ?_⟩
  intro hmem
  rcases mem_cons.mp hmem with heq | hmem
  . exact hne heq.symm
  . exact h.nil_not_mem hmem

theorem unlink [DecidableEq α] (hx : x ∈ l) (hn : ∀ y ∈ l, y ≠ x → next' y = if y = prev x then next x else next y)
    (hp : ∀ y ∈ l, y ≠ x → prev' y = if y = next x then prev x else prev y)
    : IsList next' prev' nil (if prev x = nil then next x else head)
        (if next x = nil then prev x else tail) (l.erase x) where
  seg := by
    obtain ⟨l1, l2, heq, h1, h2⟩ := h.sides hx
    obtain ⟨⟨hx1, hx2, hnil1, hnil2⟩, hd1, hd2, hsep⟩ := h.not_mem_sides heq
    subst heq
    have hleft : Seg next' prev' nil (if prev x = nil then next x else head) l1 (prev x) (next x) := by
      apply h1.relink_last hd1 hnil1
      . intro y hy
        exact hn y (mem_append_left _ hy) fun heq => hx1 (heq ▸ hy)
      . intro y hy
        rw [hp y (mem_append_left _ hy) fun heq => hx1 (heq ▸ hy), if_neg]
        rintro rfl
        exact h2.first_mem.elim (fun heq => hnil1 (heq ▸ hy)) (hsep _ hy)
    have hright : Seg next' prev' (prev x) (next x) l2 (if next x = nil then prev x else tail) nil := by
      apply h2.relink hd2 hnil2
      . intro y hy
        rw [hn y (by simp [hy]) fun heq => hx2 (heq ▸ hy), if_neg]
        rintro rfl
        exact h1.last_mem.elim (fun heq => hnil2 (heq ▸ hy)) fun hmem => hsep _ hmem hy
      . intro y hy
        exact hp y (by simp [hy]) fun heq => hx2 (heq ▸ hy)
    rw [erase_append_right _ hx1, erase_cons_head, Seg.append_iff]
    exact ⟨prev x, next x, hleft, hright⟩
  nodup := h.nodup.erase x
  nil_not_mem := fun hmem => h.nil_not_mem (mem_of_mem_erase hmem)

end IsList

def IsRing (next prev : α → α) (root : α) (l : List α) : Prop :=
  IsList next prev root (next root) (prev root) l

namespace IsRing

variable {root : α} {l l1 l2 : List α}

theorem empty (hnext : next root = root) (hprev : prev root = root) : IsRing next prev root [] := by
  unfold IsRing
  rw [hnext, hprev]
  exact .empty

theorem links_at (h : IsRing next prev root (l1 ++ l2))
    : ∃ m c, (l1.getLast?).getD root = m ∧ (l2.head?).getD root = c ∧ next m = c ∧ prev c = m ∧
        Seg next prev root (next root) l1 m c ∧ Seg next prev m c l2 (prev root) root := by
  obtain ⟨m, c, h1, h2⟩ := Seg.append_iff.mp h.seg
  exact ⟨m, c, h1.getLast_eq, h2.head_eq, h1.reverse.prev_head rfl, h2.prev_head rfl, h1, h2⟩

theorem insert [DecidableEq α] (h : IsRing next prev root (l1 ++ l2)) (hm : (l1.getLast?).getD root = m)
    (hx : x ∉ l1 ++ l2) (hne : x ≠ root) (hxm : x ≠ m) (hxc : x ≠ next m)
    : IsRing (update (update next x (next m)) m x) (update (update prev x m) (next m) x) root (l1 ++ x :: l2) := by
  have hnext : update (update next x (next m)) m x x = next m := by rw [update_of_ne hxm, update_self]
  have hprev : update (update prev x m) (next m) x x = m := by rw [update_of_ne hxc, update_self]
  have hn (y) (hy : y ≠ x) : update (update next x (next m)) m x y = if y = m then x else next y := by
    rw [update_apply, update_of_ne hy]
  have hp (y) (hy : y ≠ x) : update (update prev x m) (next m) x y = if y = next m then x else prev y := by
    rw [update_apply, update_of_ne hy]
  generalize update (update next x (next m)) m x = next' at *
  generalize update (update prev x m) (next m) x = prev' at *
  obtain ⟨m', c, hm', _, hnextm, _, h1, h2⟩ := h.links_at
  obtain rfl : m' = m := hm'.symm.trans hm
  have hroot := h.nil_not_mem
  have hnodup := h.nodup
  rw [nodup_append] at hnodup
  obtain ⟨hd1, hd2, hdis⟩ := hnodup
  have hroot' := hroot
  rw [mem_append, not_or] at hx hroot'
  rw [hnextm] at hnext hp
  have hleft : Seg next' prev' root (next' root) l1 m' x := by
    rw [hn root hne.symm]
    simp only [eq_comm (a := root)]
    apply h1.relink_last hd1 hroot'.1
    . intro y hy
      exact hn y fun heq => hx.1 (heq ▸ hy)
    . intro y hy
      rw [hp y fun heq => hx.1 (heq ▸ hy), if_neg]
      rintro rfl
      exact h2.first_mem.elim (fun heq => hroot'.1 (heq ▸ hy)) fun hmem => hdis _ hy _ hmem rfl
  have hright : Seg next' prev' x c l2 (prev' root) root := by
    rw [hp root hne.symm]
    simp only [eq_comm (a := root)]
    apply h2.relink hd2 hroot'.2
    . intro y hy
      rw [hn y fun heq => hx.2 (heq ▸ hy), if_neg]
      rintro rfl
      exact h1.last_mem.elim (fun heq => hroot'.2 (heq ▸ hy)) fun hmem => hdis _ hmem _ hy rfl
    . intro y hy
      exact hp y fun heq => hx.2 (heq ▸ hy)
  refine ⟨?_, ?_, ?_⟩
  . rw [Seg.append_iff]
    exact ⟨m', x, hleft, rfl, hprev, hnext.symm ▸ hright⟩
  . exact perm_middle.nodup_iff.mpr (nodup_cons.mpr ⟨by simp [hx], h.nodup⟩)
  . intro hmem
    rcases mem_cons.mp (perm_middle.mem_iff.mp hmem) with heq | hmem
    . exact hne heq.symm
    . exact hroot hmem

theorem unlink [DecidableEq α] (h : IsRing next prev root (l1 ++ x :: l2))
    (hn : ∀ y, y ≠ x → next' y = if y = prev x then next x else next y)
    (hp : ∀ y, y ≠ x → prev' y = if y = next x then prev x else prev y) : IsRing next' prev' root (l1 ++ l2) := by
  have hmem : x ∈ l1 ++ x :: l2 := by simp
  have hne : root ≠ x := fun heq => h.nil_not_mem (heq ▸ hmem)
  have hlist := IsList.unlink h hmem (fun y _ => hn y) (fun y _ => hp y)
  have hx1 := (IsList.not_mem_sides h rfl).1.1
  unfold IsRing
  rw [hn root hne, hp root hne]
  rw [erase_append_right _ hx1, erase_cons_head] at hlist
  simpa only [eq_comm] using hlist

end IsRing

end LinkedList
