import Goish.Container.Lemmas.List
import Goish.Container.Sequence
import Mathlib.Data.List.Nodup

open List Function
open Function (update)

namespace Container

variable {T : Type} {s s' : State T} {m m' : Model T} {issued : List Element} {since : Nat → Nat} {e mark : Element}
  {l : Nat} {ps qs : List (Nat × Nat)}

def Fresh (s : State T) (e : Element) : Prop :=
  ∀ c, (s.lists e.list).cell e.id = some c → c = e.cell

structure Handle (s : State T) (m : Model T) (since : Nat → Nat) (e : Element) : Prop where
  list : e.list < m.nlists
  cell : e.cell < m.ncells
  id : e.id ≠ rootId
  place : ∀ l < m.nlists, e.cell ∈ m.seqs l → l = e.list ∧ (s.lists l).cell e.id = some e.cell
  fresh : since e.list ≤ e.cell → Fresh s e ∧ e.id < (s.lists e.list).nextId

structure Agrees (s : State T) (m : Model T) (issued : List Element) (since : Nat → Nat) : Prop where
  nlists : s.nlists = m.nlists
  cells : s.cells = m.cells
  ncells : s.ncells = m.ncells
  lists : ∀ l < m.nlists, ∃ ps, (s.lists l).Holds ps ∧ m.seqs l = ps.map Prod.snd
  nodup : ∀ l < m.nlists, (m.seqs l).Nodup
  apart : ∀ l < m.nlists, ∀ l' < m.nlists, ∀ c ∈ m.seqs l, c ∈ m.seqs l' → l = l'
  bound : ∀ l < m.nlists, ∀ c ∈ m.seqs l, c < m.ncells
  handles : ∀ e ∈ issued, Handle s m since e

namespace Agrees

theorem member_iff (h : Agrees s m issued since) (he : e ∈ issued) (hfresh : Fresh s e) (hl : l < m.nlists)
    : e.cell ∈ m.seqs l ↔ e.list = l ∧ ((s.lists l).nodes e.id).isSome := by
  have hhandle := h.handles e he
  obtain ⟨_, hps, hseq⟩ := h.lists l hl
  constructor
  . intro hmem
    obtain ⟨heq, hcell⟩ := hhandle.place l hl hmem
    exact ⟨heq.symm, hps.id_some (hps.mem_of_cell hcell)⟩
  rintro ⟨rfl, hsome⟩
  rcases (hps.some_iff _).mp hsome with hroot | hmem
  . exact absurd hroot hhandle.id
  obtain ⟨p, hp, heq⟩ := mem_map.mp hmem
  have hcell := hps.cells p hp
  rw [heq] at hcell
  rw [hseq, ← hfresh _ hcell]
  exact mem_map_of_mem hp

theorem sides (h : Agrees s m issued since) (he : e ∈ issued) (hl : l < m.nlists) (hmem : e.cell ∈ m.seqs l)
    : e.list = l ∧ ∃ ps qs, (s.lists l).Holds (ps ++ (e.id, e.cell) :: qs) ∧
        m.seqs l = ps.map Prod.snd ++ e.cell :: qs.map Prod.snd := by
  obtain ⟨heq, hcell⟩ := (h.handles e he).place l hl hmem
  obtain ⟨_, hrs, hseq⟩ := h.lists l hl
  obtain ⟨ps, qs, rfl⟩ := append_of_mem (hrs.mem_of_cell hcell)
  refine ⟨heq.symm, ps, qs, hrs, ?_⟩
  rw [hseq, map_append, map_cons]

section Agrees

variable (h : Agrees s m issued since)
include h

attribute [local simp] State.set Model.set Fresh

section

variable {inner : ListInner} (hl : l < m.nlists) (hps : (s.lists l).Holds ps) (hseq : m.seqs l = ps.map Prod.snd)
  (hqs : inner.Holds qs) (hsub : ∀ p ∈ qs, p ∈ ps) (hnodup : (qs.map Prod.snd).Nodup)
include hl hps hseq hqs hsub hnodup

theorem set_since (hsince : ∀ l', l' ≠ l → since' l' = since l')
    (hid : ∀ e ∈ issued, since' l ≤ e.cell → since l ≤ e.cell ∧ inner.nextId = (s.lists l).nextId)
    : Agrees (s.set l inner) (m.set l (qs.map Prod.snd)) issued since' := by
  have hmem (c : Nat) (hc : c ∈ qs.map Prod.snd) : c ∈ m.seqs l := by
    obtain ⟨p, hp, rfl⟩ := mem_map.mp hc
    rw [hseq]
    exact mem_map_of_mem (hsub p hp)
  have hseqs (l' c : Nat) (hc : c ∈ (m.set l (qs.map Prod.snd)).seqs l') : c ∈ m.seqs l' := by
    by_cases hl' : l' = l
    . subst hl'
      exact hmem c (by simpa using hc)
    . simpa [hl'] using hc
  refine ⟨h.nlists, h.cells, h.ncells, ?_, ?_, ?_, ?_, ?_⟩
  . intro l' hl'
    by_cases heq : l' = l
    . subst heq
      exact ⟨qs, by simpa using hqs, by simp⟩
    . simpa [heq] using h.lists l' hl'
  . intro l' hl'
    by_cases heq : l' = l
    . subst heq
      simpa using hnodup
    . simpa [heq] using h.nodup l' hl'
  . intro l1 hl1 l2 hl2 c hc1 hc2
    exact h.apart l1 hl1 l2 hl2 c (hseqs l1 c hc1) (hseqs l2 c hc2)
  . intro l' hl' c hc
    exact h.bound l' hl' c (hseqs l' c hc)
  intro e he
  have hhandle := h.handles e he
  refine ⟨hhandle.list, hhandle.cell, hhandle.id, ?_, ?_⟩
  . intro l' hl' hc
    obtain ⟨heq, hcell⟩ := hhandle.place l' hl' (hseqs l' _ hc)
    refine ⟨heq, ?_⟩
    by_cases hl : l' = l
    . subst hl
      obtain ⟨q, hq, hqc⟩ := mem_map.mp (show e.cell ∈ qs.map Prod.snd by simpa using hc)
      have hinj := inj_on_of_nodup_map (hseq ▸ h.nodup l' hl') (hsub q hq) (hps.mem_of_cell hcell) hqc
      have := hqs.cells q hq
      rw [hinj] at this
      simpa using this
    . simpa [hl] using hcell
  . by_cases heq : e.list = l
    . intro hle
      rw [heq] at hle
      obtain ⟨hold, hnext⟩ := hid e he hle
      have hfresh := hhandle.fresh (heq ▸ hold)
      unfold Fresh at hfresh ⊢
      rw [heq] at hfresh ⊢
      simp only [State.set, update_self]
      refine ⟨fun c hc => ?_, hnext ▸ hfresh.2⟩
      exact hfresh.1 c (hps.cells _ (hsub _ (hqs.mem_of_cell hc)))
    . rw [hsince _ heq]
      intro hle
      simpa [heq] using hhandle.fresh hle

theorem set
    (hid : inner.nextId = (s.lists l).nextId) : Agrees (s.set l inner) (m.set l (qs.map Prod.snd)) issued since := by
  apply h.set_since hl hps hseq hqs hsub hnodup
  . intro _ _
    rfl
  . intro e _ hle
    exact ⟨hle, hid⟩

end

theorem init (hl : l < m.nlists) : Agrees (s.set l (s.lists l).init) (m.set l []) issued (update since l m.ncells) := by
  obtain ⟨_, hps, hseq⟩ := h.lists l hl
  apply h.set_since hl hps hseq (ListInner.new_holds) (by simp) (by simp)
  . intro _ hl'
    exact update_of_ne hl' ..
  . intro e he hle
    rw [update_self] at hle
    have := (h.handles e he).cell
    omega

theorem newList : Agrees { s with lists := update s.lists s.nlists .new, nlists := s.nlists + 1 }
        { m with seqs := update m.seqs m.nlists [], nlists := m.nlists + 1 } issued since := by
  have hseqs (l : Nat) (hl : l < m.nlists + 1) (c : Nat) (hc : c ∈ update m.seqs m.nlists [] l)
      : l < m.nlists ∧ c ∈ m.seqs l := by
    by_cases heq : l = m.nlists
    . simp [heq] at hc
    . exact ⟨by omega, by simpa [heq] using hc⟩
  rw [h.nlists]
  refine ⟨rfl, h.cells, h.ncells, ?_, ?_, ?_, ?_, ?_⟩
  . intro l hl
    by_cases heq : l = m.nlists
    . exact ⟨[], by simpa [heq] using ListInner.new_holds, by simp [heq]⟩
    . simpa [heq] using h.lists l (by dsimp only at hl; omega)
  . intro l hl
    by_cases heq : l = m.nlists
    . simp [heq]
    . simpa [heq] using h.nodup l (by dsimp only at hl; omega)
  . intro l1 hl1 l2 hl2 c hc1 hc2
    obtain ⟨hl1, hc1⟩ := hseqs l1 hl1 c hc1
    obtain ⟨hl2, hc2⟩ := hseqs l2 hl2 c hc2
    exact h.apart l1 hl1 l2 hl2 c hc1 hc2
  . intro l hl c hc
    obtain ⟨hl, hc⟩ := hseqs l hl c hc
    exact h.bound l hl c hc
  intro e he
  have hhandle := h.handles e he
  have hne : e.list ≠ m.nlists := Nat.ne_of_lt hhandle.list
  refine ⟨Nat.lt_succ_of_lt hhandle.list, hhandle.cell, hhandle.id, ?_, ?_⟩
  . intro l hl hc
    obtain ⟨hl, hc⟩ := hseqs l hl _ hc
    simpa [Nat.ne_of_lt hl] using hhandle.place l hl hc
  . simpa [hne] using hhandle.fresh

theorem setValue (c : Nat) (v : T)
    : Agrees { s with cells := update s.cells c v } { m with cells := update m.cells c v } issued since := by
  refine ⟨h.nlists, by simp [h.cells], h.ncells, h.lists, h.nodup, h.apart, h.bound, ?_⟩
  intro e he
  have hhandle := h.handles e he
  exact { hhandle with }

theorem issue (hl : l < m.nlists) (hps : (s.lists l).Holds ps) (hseq : m.seqs l = ps.map Prod.snd) (hp : p ∈ ps)
    : Agrees s m ({ list := l, id := p.1, cell := p.2 } :: issued) since := by
  refine { h with handles := ?_ }
  have hmem : p.2 ∈ m.seqs l := hseq ▸ mem_map_of_mem hp
  intro e he
  rw [mem_cons] at he
  rcases he with heq | he
  . rw [heq]
    refine ⟨hl, h.bound l hl _ hmem, ?_, ?_, ?_⟩
    . intro hroot
      apply hps.ring.nil_not_mem
      rw [← hroot]
      exact mem_map_of_mem hp
    . intro l' hl' hc
      have := h.apart l' hl' l hl _ hc hmem
      exact ⟨this, this ▸ hps.cells p hp⟩
    intro _
    refine ⟨?_, hps.fresh p hp⟩
    intro c hc
    have := hps.cells p hp
    exact Option.some.inj (hc.symm.trans this)
  . exact h.handles e he

theorem insertAt (hl : l < m.nlists) (hps : (s.lists l).Holds (ps ++ qs))
    (hseq : m.seqs l = (ps ++ qs).map Prod.snd) (v : T) (place : Nat → List Nat → List Nat)
    (hplace : place m.ncells (m.seqs l) = ps.map Prod.snd ++ m.ncells :: qs.map Prod.snd)
    : ∃ s' e, s.insertAt l v (ListInner.lastId ps) = some (s', e) ∧
        (m.insert l v place).2 = .elem (some e.toElem) ∧
        Agrees s' (m.insert l v place).1 (e :: issued) since := by
  obtain ⟨inner, hinsert, hholds, hcell, hid⟩ := hps.insert_spec m.ncells
  have hfun : s.insertAt l v (ListInner.lastId ps) =
      some (({ s with cells := update s.cells s.ncells v, ncells := s.ncells + 1 } : State T).set l inner,
        { list := l, id := (s.lists l).nextId, cell := m.ncells }) := by
    unfold State.insertAt State.alloc ListInner.insertValue
    dsimp only
    rw [h.ncells, hinsert, Option.map_some]
  refine ⟨_, _, hfun, rfl, ?_⟩
  have hmodel : (m.insert l v place).1 = { m with
      seqs := update m.seqs l ((ps ++ ((s.lists l).nextId, m.ncells) :: qs).map Prod.snd),
      cells := update m.cells m.ncells v, ncells := m.ncells + 1 } := by
    unfold Model.insert
    rw [hplace]
    simp
  rw [hmodel]
  -- An element of the new sequence is an old one or the new one.
  have hseqs (l' c : Nat)
      (hc : c ∈ update m.seqs l ((ps ++ ((s.lists l).nextId, m.ncells) :: qs).map Prod.snd) l')
      : c ∈ m.seqs l' ∨ (l' = l ∧ c = m.ncells) := by
    by_cases hl' : l' = l
    . subst hl'
      rw [update_self] at hc
      rw [hseq]
      grind
    . rw [update_of_ne hl'] at hc
      exact .inl hc
  have hnew : m.ncells ∉ m.seqs l := fun hmem => Nat.lt_irrefl _ (h.bound l hl _ hmem)
  have hagrees : Agrees (({ s with cells := update s.cells s.ncells v, ncells := s.ncells + 1 } : State T).set l inner)
      { m with seqs := update m.seqs l ((ps ++ ((s.lists l).nextId, m.ncells) :: qs).map Prod.snd),
               cells := update m.cells m.ncells v, ncells := m.ncells + 1 } issued since := by
    refine ⟨h.nlists, ?_, ?_, ?_, ?_, ?_, ?_, ?_⟩
    . simp [h.cells, h.ncells]
    . simp [h.ncells]
    . intro l' hl'
      by_cases heq : l' = l
      . subst heq
        exact ⟨_, by simpa using hholds, by simp⟩
      . simpa [heq] using h.lists l' hl'
    . intro l' hl'
      by_cases heq : l' = l
      . subst heq
        have hnodup := h.nodup l' hl
        rw [hseq, map_append] at hnodup hnew
        simp only [update_self, map_append, map_cons]
        exact perm_middle.nodup_iff.mpr (nodup_cons.mpr ⟨hnew, hnodup⟩)
      . simpa [heq] using h.nodup l' hl'
    . intro l1 hl1 l2 hl2 c hc1 hc2
      rcases hseqs l1 c hc1 with hold1 | ⟨hl1', hnew1⟩
      . rcases hseqs l2 c hc2 with hold2 | ⟨_, hnew2⟩
        . exact h.apart l1 hl1 l2 hl2 c hold1 hold2
        . exact absurd (hnew2 ▸ h.bound l1 hl1 _ hold1) (Nat.lt_irrefl _)
      . rcases hseqs l2 _ hc2 with hold2 | ⟨hl2', _⟩
        . exact absurd (hnew1 ▸ h.bound l2 hl2 _ hold2) (Nat.lt_irrefl _)
        . rw [hl1', hl2']
    . intro l' hl' c hc
      rcases hseqs l' c hc with hc | ⟨_, rfl⟩
      . exact Nat.lt_succ_of_lt (h.bound l' hl' c hc)
      . exact Nat.lt_succ_self _
    intro e he
    have hhandle := h.handles e he
    refine ⟨hhandle.list, Nat.lt_succ_of_lt hhandle.cell, hhandle.id, ?_, ?_⟩
    . intro l' hl' hc
      rcases hseqs l' _ hc with hc | ⟨_, heq⟩
      . obtain ⟨heq, hold⟩ := hhandle.place l' hl' hc
        refine ⟨heq, ?_⟩
        by_cases hl' : l' = l
        . subst hl'
          have hlt := hps.fresh _ (hps.mem_of_cell hold)
          simp only [State.set, update_self, hcell]
          rwa [update_of_ne (Nat.ne_of_lt hlt)]
        . simpa [hl'] using hold
      . have := hhandle.cell
        omega
    . intro hle
      obtain ⟨hfresh, hlt⟩ := hhandle.fresh hle
      by_cases heq : e.list = l
      . unfold Fresh at hfresh ⊢
        rw [heq] at hfresh hlt ⊢
        simp only [State.set, update_self, hcell, hid]
        rw [update_of_ne (Nat.ne_of_lt hlt)]
        exact ⟨hfresh, Nat.lt_succ_of_lt hlt⟩
      . simpa [heq] using ⟨hfresh, hlt⟩
  have hissue := hagrees.issue (l := l) (p := ((s.lists l).nextId, m.ncells)) hl (by simpa using hholds)
    (by simp) (by simp)
  exact hissue

end Agrees

end Agrees

end Container
