import Goish.Container.Lemmas.Exec
import Goish.Data.System

/-! As long as no operation is given a handle whose number a later element has, the lists are sequences. -/

open List
open Function (update)

namespace Container

open State

variable {T : Type}

structure Client (T : Type) where
  s : State T
  m : Model T
  issued : List Element
  since : Nat → Nat

def Client.Legal (c : Client T) (op : Op Element T) : Prop :=
  (∀ l ∈ op.lists, l < c.s.nlists) ∧ ∀ e ∈ op.handles, e ∈ c.issued

def listSystem (T : Type) (ok : State T → Element → Prop) : System (Client T) where
  init c := c.s.nlists = 0 ∧ c.s.ncells = 0 ∧ c.m.nlists = 0 ∧ c.m.ncells = 0 ∧ c.s.cells = c.m.cells ∧ c.issued = []
  step c c' := ∃ op r, c.Legal op ∧ (∀ e ∈ op.handles, ok c.s e) ∧ c.s.exec op = some (c'.s, r) ∧
    c'.m = (c.m.exec (op.map Element.toElem)).1 ∧ c'.issued = r.handles ++ c.issued ∧
    c'.since = op.stamp c.m c.since

namespace State

def walk (link : Element → Option Element) : Nat → Option Element → List Element
  | 0, _ => []
  | _ + 1, none => []
  | n + 1, some e => e :: walk link n (link e)

def forward (s : State T) (l : Nat) : List Element :=
  walk s.next ((s.lists l).len.toNat + 1) (s.front l)

def backward (s : State T) (l : Nat) : List Element :=
  walk s.prev ((s.lists l).len.toNat + 1) (s.back l)

end State

structure Ignored (s : State T) (l : Nat) (e : Element) : Prop where
  links : e.list = l → s.next e = none ∧ s.prev e = none
  remove : s.remove l e = s
  moveToFront : s.moveToFront l e = some s
  moveToBack : s.moveToBack l e = some s
  insert : ∀ v, s.insertBefore l v e = some (s, none) ∧ s.insertAfter l v e = some (s, none)
  moveBefore : ∀ x, s.moveBefore l e x = some s ∧ s.moveBefore l x e = some s
  moveAfter : ∀ x, s.moveAfter l e x = some s ∧ s.moveAfter l x e = some s

section Walks

variable {s : State T} {l : Nat} {ps qs : List (Nat × Nat)}

def elemOf (l : Nat) (p : Nat × Nat) : Element :=
  { list := l, id := p.1, cell := p.2 }

theorem walk_next (hps : (s.lists l).Holds (ps ++ qs)) (hn : qs.length < n)
    : walk s.next n (qs.head?.map (elemOf l)) = qs.map (elemOf l) := by
  induction n generalizing ps qs with
  | zero => omega
  | succ n ih =>
    cases qs with
    | nil => rfl
    | cons p qs =>
      have hnext : s.next (elemOf l p) = qs.head?.map (elemOf l) := next_eq rfl hps
      rw [List.head?_cons, Option.map_some, walk, hnext, map_cons]
      rw [append_cons] at hps
      rw [ih hps (by simpa using hn)]

theorem walk_prev (hps : (s.lists l).Holds (ps ++ qs)) (hn : ps.length < n)
    : walk s.prev n (ps.getLast?.map (elemOf l)) = ps.reverse.map (elemOf l) := by
  induction n generalizing ps qs with
  | zero => omega
  | succ n ih =>
    rcases eq_nil_or_concat ps with hnil | hconcat
    . rw [hnil]
      rfl
    obtain ⟨ps', p, rfl⟩ := hconcat
    rw [concat_eq_append] at hps hn ⊢
    rw [← append_cons] at hps
    have hprev : s.prev (elemOf l p) = ps'.getLast?.map (elemOf l) := prev_eq rfl hps
    rw [List.getLast?_concat, Option.map_some, walk, hprev, ih hps (by simp at hn; omega)]
    simp

end Walks

section Run

variable {c : Client T}

theorem reachable_agrees (h : (listSystem T Fresh).Reachable c) : Agrees c.s c.m c.issued c.since := by
  apply h.invariant (fun c => Agrees c.s c.m c.issued c.since)
  . intro c ⟨hn, hc, hn', hc', hcells, hissued⟩
    refine ⟨hn.trans hn'.symm, hcells, hc.trans hc'.symm, ?_, ?_, ?_, ?_, ?_⟩
    . intro _ _
      omega
    . intro _ _
      omega
    . intro _ _
      omega
    . intro _ _
      omega
    . rw [hissued]
      simp
  . intro _ _ hagrees ⟨op, _, ⟨hlists, hhandles⟩, hfresh, hexec, hm, hissued, hsince⟩
    obtain ⟨_, _, hexec', _, hagrees'⟩ := simulates op hagrees (hagrees.nlists ▸ hlists)
      (fun e he => ⟨hhandles e he, hfresh e he⟩)
    cases hexec.symm.trans hexec'
    rw [hm, hissued, hsince]
    exact hagrees'

theorem ignored (h : Agrees s m issued since) (he : e ∈ issued) (hfresh : Fresh s e) (hl : l < m.nlists)
    (hmem : e.cell ∉ m.seqs l) : Ignored s l e := by
  have hnot := not_member h ⟨he, hfresh⟩ hl hmem
  refine ⟨?_, ?_, ?_, ?_, ?_, ?_, ?_⟩
  . intro heq
    exact next_eq_none h ⟨he, hfresh⟩ (heq ▸ hmem)
  . unfold remove
    rw [if_neg]
    rintro ⟨hlist, hsome, _⟩
    exact hmem ((h.member_iff he hfresh hl).mpr ⟨hlist, hsome⟩)
  . unfold moveToFront
    grind
  . unfold moveToBack
    grind
  . intro v
    unfold insertBefore insertAfter
    grind
  . intro x
    unfold moveBefore
    grind
  . intro x
    unfold moveAfter
    grind

theorem fresh_iff (h : Agrees s m issued since) (he : e ∈ issued)
    : Fresh s e ↔ (((s.lists e.list).nodes e.id).isSome ↔ e.cell ∈ m.seqs e.list) := by
  have hhandle := h.handles e he
  constructor
  . intro hfresh
    rw [h.member_iff he hfresh hhandle.list]
    simp
  intro hiff x hx
  obtain ⟨_, hps, _⟩ := h.lists e.list hhandle.list
  have hmem := hiff.mp (hps.id_some (hps.mem_of_cell hx))
  have hcell := (hhandle.place e.list hhandle.list hmem).2
  exact Option.some.inj (hx.symm.trans hcell)

theorem list_refines (h : (listSystem T Fresh).Reachable c) : (∀ op, c.Legal op → (∀ e ∈ op.handles, Fresh c.s e) →
        ∃ s r, c.s.exec op = some (s, r) ∧ r.map Element.toElem = (c.m.exec (op.map Element.toElem)).2) ∧
      (∀ l < c.s.nlists, (c.s.lists l).len = (c.m.seqs l).length ∧ (c.m.seqs l).Nodup ∧
        (c.s.forward l).map Element.cell = c.m.seqs l ∧ (c.s.backward l).map Element.cell = (c.m.seqs l).reverse) ∧
      ∀ e ∈ c.issued, (c.since e.list ≤ e.cell → Fresh c.s e) ∧
        (Fresh c.s e ↔ (((c.s.lists e.list).nodes e.id).isSome ↔ e.cell ∈ c.m.seqs e.list)) ∧
        (Fresh c.s e → ∀ l < c.s.nlists, e.cell ∉ c.m.seqs l → Ignored c.s l e) := by
  have hagrees := reachable_agrees h
  refine ⟨?_, ?_, ?_⟩
  . intro op ⟨hlists, hhandles⟩ hfresh
    obtain ⟨s, r, hexec, hret, _⟩ := simulates op hagrees (hagrees.nlists ▸ hlists)
      (fun e he => ⟨hhandles e he, hfresh e he⟩)
    exact ⟨s, r, hexec, hret⟩
  . intro l hl
    rw [hagrees.nlists] at hl
    obtain ⟨ps, hps, hseq⟩ := hagrees.lists l hl
    have hfuel : ps.length < (c.s.lists l).len.toNat + 1 := by
      rw [hps.len]
      simp
    refine ⟨?_, hagrees.nodup l hl, ?_, ?_⟩
    . rw [hps.len, hseq, length_map]
    . unfold forward
      rw [front_eq hps]
      have hwalk := walk_next (show (c.s.lists l).Holds ([] ++ ps) from hps) hfuel
      unfold elemOf at hwalk
      rw [hwalk, hseq, map_map]
      rfl
    . unfold backward
      rw [back_eq hps]
      have hwalk := walk_prev (show (c.s.lists l).Holds (ps ++ []) by simpa using hps) hfuel
      unfold elemOf at hwalk
      rw [hwalk, hseq, map_map, ← map_reverse]
      rfl
  . intro e he
    refine ⟨?_, fresh_iff hagrees he, ?_⟩
    . intro hle
      exact ((hagrees.handles e he).fresh hle).1
    . intro hfresh l hl hmem
      exact ignored hagrees he hfresh (hagrees.nlists ▸ hl) hmem

end Run

def Client.empty (cells : Nat → T) : Client T :=
  { s := { lists := fun _ => .new, nlists := 0, cells := cells, ncells := 0 },
    m := { seqs := fun _ => [], nlists := 0, cells := cells, ncells := 0 }, issued := [], since := fun _ => 0 }

instance (s : State T) (e : Element) : Decidable (Fresh s e) :=
  decidable_of_iff ((s.lists e.list).cell e.id = none ∨ (s.lists e.list).cell e.id = some e.cell) (by
    unfold Fresh
    cases (s.lists e.list).cell e.id <;> simp)

instance (c : Client T) (op : Op Element T) : Decidable (c.Legal op) :=
  inferInstanceAs (Decidable (_ ∧ _))

def Client.act (ok : State T → Element → Prop) [∀ s e, Decidable (ok s e)] (c : Client T) (op : Op Element T)
    : Option (Client T) :=
  if c.Legal op ∧ ∀ e ∈ op.handles, ok c.s e then
    (c.s.exec op).map fun (s, r) =>
      { s := s, m := (c.m.exec (op.map Element.toElem)).1, issued := r.handles ++ c.issued, since := op.stamp c.m c.since }
  else
    none

theorem Client.act_step (ok : State T → Element → Prop) [∀ s e, Decidable (ok s e)] (c : Client T) (op : Op Element T)
    (c' : Client T) (h : c.act ok op = some c') : (listSystem T ok).step c c' := by
  unfold act at h
  split at h
  . next hlegal =>
    rw [Option.map_eq_some_iff] at h
    obtain ⟨⟨_, r⟩, hexec, heq⟩ := h
    subst heq
    exact ⟨op, r, hlegal.1, hlegal.2, hexec, rfl, rfl, rfl⟩
  . contradiction

theorem list_refines_moved : ∃ c, (listSystem Nat Fresh).Reachable c ∧ (c.s.forward 0).map Element.cell = [1] ∧
        Ignored c.s 0 { list := 0, id := 1, cell := 0 } := by
  obtain ⟨c, hrun, hc⟩ := System.exists_run (listSystem Nat Fresh) _ (Client.act_step Fresh)
    (.empty fun _ => 0) [.new, .pushBack 0 7, .pushBack 0 8, .moveToFront 0 { list := 0, id := 2, cell := 1 },
      .remove 0 { list := 0, id := 1, cell := 0 }]
    (fun c => 0 < c.s.nlists ∧ c.m.seqs 0 = [1] ∧ { list := 0, id := 1, cell := 0 } ∈ c.issued ∧ c.since 0 = 0)
    (by decide +kernel)
  rw [decide_eq_true_eq] at hc
  obtain ⟨hn, hseq, hissued, hsince⟩ := hc
  have h : (listSystem Nat Fresh).Reachable c := .trans (.init ⟨rfl, rfl, rfl, rfl, rfl, rfl⟩) hrun
  obtain ⟨_, hlists, hhandles⟩ := list_refines h
  refine ⟨c, h, ?_, ?_⟩
  . rw [(hlists 0 hn).2.2.1, hseq]
  . obtain ⟨hfresh, _, hignored⟩ := hhandles _ hissued
    exact hignored (hfresh (by simp [hsince])) 0 hn (by simp [hseq])

theorem list_stale : ∃ c, (listSystem Nat fun _ _ => True).Reachable c ∧ { list := 0, id := 1, cell := 0 } ∈ c.issued ∧
        c.m.seqs 0 = [1] ∧ (c.s.forward 0).map Element.cell = [1] ∧
        ((c.s.remove 0 { list := 0, id := 1, cell := 0 }).forward 0).map Element.cell = [] := by
  obtain ⟨c, hrun, hc⟩ := System.exists_run (listSystem Nat fun _ _ => True) _ (Client.act_step fun _ _ => True)
    (.empty fun _ => 0) [.new, .pushBack 0 7, .init 0, .pushBack 0 8]
    (fun c => { list := 0, id := 1, cell := 0 } ∈ c.issued ∧ c.m.seqs 0 = [1] ∧
      (c.s.forward 0).map Element.cell = [1] ∧
      ((c.s.remove 0 { list := 0, id := 1, cell := 0 }).forward 0).map Element.cell = [])
    (by decide +kernel)
  rw [decide_eq_true_eq] at hc
  exact ⟨c, System.Reachable.trans (.init ⟨rfl, rfl, rfl, rfl, rfl, rfl⟩) hrun, hc⟩

end Container
