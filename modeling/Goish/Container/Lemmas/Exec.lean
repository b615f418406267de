import Goish.Container.Lemmas.Refine

open List Option Function
open Function (update)

namespace Container

open State ListInner

variable {T : Type} {s s' : State T} {m m' : Model T} {issued : List Element} {since : Nat → Nat} {e mark : Element}
  {l other : Nat} {ps qs : List (Nat × Nat)}

def Ret.handles : Ret Element T → List Element
  | .elem (some e) => [e]
  | _ => []

def Op.stamp (m : Model T) (since : Nat → Nat) : Op Element T → Nat → Nat
  | .init l => update since l m.ncells
  | _ => since

structure Simulates (s : State T) (m : Model T) (issued : List Element) (since : Nat → Nat) (op : Op Element T)
    (s' : State T) (r : Ret Element T) : Prop where
  exec : s.exec op = some (s', r)
  ret : r.map Element.toElem = (m.exec (op.map Element.toElem)).2
  agrees : Agrees s' (m.exec (op.map Element.toElem)).1 (r.handles ++ issued) (op.stamp m since)

section

variable (hps : (s.lists l).Holds ps)
include hps

theorem elemAt_eq (hp : p ∈ ps) : s.elemAt l p.1 = some { list := l, id := p.1, cell := p.2 } := by
  unfold elemAt
  rw [nodes_eq (hps.id_some hp), hps.cells p hp]
  rfl

theorem front_eq : s.front l = ps.head?.map fun p => { list := l, id := p.1, cell := p.2 } := by
  unfold front
  rw [hps.len]
  cases ps with
  | nil => rfl
  | cons p ps =>
    have hnext : (s.lists l).next rootId = p.1 := (show (s.lists l).Holds ([] ++ p :: ps) from hps).links.1
    rw [if_neg (by simp; omega), nodes_eq hps.mem_root]
    rw [hnext]
    exact elemAt_eq hps mem_cons_self

theorem back_eq : s.back l = ps.getLast?.map fun p => { list := l, id := p.1, cell := p.2 } := by
  unfold back
  rw [hps.len]
  rcases eq_nil_or_concat ps with hnil | hconcat
  . rw [hnil]
    rfl
  obtain ⟨ps', p, rfl⟩ := hconcat
  rw [concat_eq_append] at hps ⊢
  have hprev : (s.lists l).prev rootId = p.1 := by
    have hlinks := (show (s.lists l).Holds ((ps' ++ [p]) ++ []) by simpa using hps).links.2
    simpa [lastId, headId] using hlinks
  rw [if_neg (by simp; omega), nodes_eq hps.mem_root]
  rw [hprev, List.getLast?_concat]
  exact elemAt_eq hps (by simp)

end

section

variable (hlist : e.list = l) (hps : (s.lists l).Holds (ps ++ (e.id, e.cell) :: qs))
include hlist hps

theorem next_eq : s.next e = qs.head?.map fun p => { list := l, id := p.1, cell := p.2 } := by
  unfold State.next
  have hnext : (s.lists l).next e.id = headId qs := hps.neighbours.2
  rw [hlist, nodes_eq (hps.id_some (p := (e.id, e.cell)) (by simp))]
  dsimp
  rw [hnext]
  rw [append_cons] at hps
  cases qs with
  | nil => rfl
  | cons p qs =>
    have hroot := mt hps.headId_eq_root.mp (cons_ne_nil p qs)
    rw [if_neg hroot]
    exact elemAt_eq hps (by simp)

theorem prev_eq : s.prev e = ps.getLast?.map fun p => { list := l, id := p.1, cell := p.2 } := by
  unfold State.prev
  have hprev : (s.lists l).prev e.id = lastId ps := hps.neighbours.1
  rw [hlist, nodes_eq (hps.id_some (p := (e.id, e.cell)) (by simp))]
  dsimp
  rw [hprev]
  rcases eq_nil_or_concat ps with hnil | hconcat
  . rw [hnil]
    rfl
  obtain ⟨ps', p, rfl⟩ := hconcat
  have hroot := mt hps.lastId_eq_root.mp (by simp)
  rw [if_neg hroot]
  rw [concat_eq_append] at hps ⊢
  have hlast : lastId (ps' ++ [p]) = p.1 := lastId_concat ..
  rw [hlast, List.getLast?_concat]
  exact elemAt_eq hps (by simp)

end

theorem set_lists_self (s : State T) (l : Nat) : s.set l (s.lists l) = s := by
  simp [State.set]

theorem lastId_eq (hps : (s.lists l).Holds ps) : (s.lists l).prev rootId = lastId ps := by
  exact (show (s.lists l).Holds (ps ++ []) by simpa using hps).links.2

theorem not_mem_of_nodup (h : (l1 ++ c :: l2).Nodup) : c ∉ l1 := by
  rw [nodup_append] at h
  exact fun hmem => h.2.2 c hmem c mem_cons_self rfl

attribute [local simp] Model.exec Ret.map Element.toElem Op.map

section Members

variable (h : Agrees s m issued since)
include h

theorem not_member (he : e ∈ issued ∧ Fresh s e) (hl : l < m.nlists)
    (hmem : e.cell ∉ m.seqs l) : e.list ≠ l ∨ (s.lists l).nodes e.id = none := by
  rw [h.member_iff he.1 he.2 hl] at hmem
  by_cases heq : e.list = l
  . right
    simpa [heq] using hmem
  . exact .inl heq

theorem simulates_new : ∃ s' r, Simulates s m issued since .new s' r := by
  refine ⟨_, _, rfl, ?_, h.newList⟩
  simp [h.nlists]

theorem simulates_skip (op : Op Element T) (r : Ret Element T) (hop : s.exec op = some (s, r))
    (hmodel : m.exec (op.map Element.toElem) = (m, r.map Element.toElem)) (hret : r.handles = [])
    (hstamp : op.stamp m since = since) : ∃ s' r, Simulates s m issued since op s' r := by
  refine ⟨s, r, hop, ?_, ?_⟩
  . rw [hmodel]
  . rwa [hmodel, hret, hstamp]

variable (hl : l < m.nlists)
include hl

theorem simulates_init : ∃ s' r, Simulates s m issued since (.init l) s' r :=
  ⟨_, _, rfl, rfl, h.init hl⟩

theorem simulates_insert (hps : (s.lists l).Holds (ps ++ qs))
    (hseq : m.seqs l = (ps ++ qs).map Prod.snd) (v : T) (place : Nat → List Nat → List Nat)
    (hplace : place m.ncells (m.seqs l) = ps.map Prod.snd ++ m.ncells :: qs.map Prod.snd)
    (hop : s.exec op = (s.insertAt l v (lastId ps)).map fun (s, e) => (s, .elem (some e)))
    (hmodel : m.exec (op.map Element.toElem) = m.insert l v place) (hstamp : op.stamp m since = since)
    : ∃ s' r, Simulates s m issued since op s' r := by
  obtain ⟨s', e, hinsert, hret, hagrees⟩ := h.insertAt hl hps hseq v place hplace
  refine ⟨s', .elem (some e), ?_, ?_, ?_⟩
  . rw [hop, hinsert, map_some]
  . rw [hmodel, hret]
    rfl
  . rwa [hmodel, hstamp]

theorem simulates_pushFront (v : T) : ∃ s' r, Simulates s m issued since (.pushFront l v) s' r := by
  obtain ⟨ps, hps, hseq⟩ := h.lists l hl
  apply simulates_insert h hl (show (s.lists l).Holds ([] ++ ps) from hps) hseq v (fun c seq => c :: seq)
  . rw [hseq]
    rfl
  . unfold exec pushFront
    dsimp only
    rw [hps.lazyInit_eq, set_lists_self]
    rfl
  . rfl
  . rfl

theorem simulates_pushBack (v : T) : ∃ s' r, Simulates s m issued since (.pushBack l v) s' r := by
  obtain ⟨ps, hps, hseq⟩ := h.lists l hl
  apply simulates_insert h hl (show (s.lists l).Holds (ps ++ []) by simpa using hps) (by simpa using hseq) v
    (fun c seq => seq ++ [c])
  . rw [hseq]
    rfl
  . unfold exec pushBack
    dsimp only
    rw [hps.lazyInit_eq, set_lists_self, nodes_eq hps.mem_root, lastId_eq hps]
    rfl
  . rfl
  . rfl

theorem simulates_insertBefore (he : mark ∈ issued ∧ Fresh s mark) (v : T)
    : ∃ s' r, Simulates s m issued since (.insertBefore l v mark) s' r := by
  by_cases hmem : mark.cell ∈ m.seqs l
  . obtain ⟨hlist, ps, _, hps, hseq⟩ := h.sides he.1 hl hmem
    have hnodup := not_mem_of_nodup (hseq ▸ h.nodup l hl)
    apply simulates_insert h hl hps (by simpa using hseq) v (Sequence.insertBefore mark.cell)
    . rw [hseq, Sequence.insertBefore_append hnodup]
      rfl
    . unfold exec insertBefore
      dsimp only
      have hprev : (s.lists l).prev mark.id = lastId ps := hps.neighbours.1
      rw [if_neg (not_not_intro hlist), nodes_eq (hps.id_some (p := (mark.id, mark.cell)) (by simp)), hprev]
      rw [Option.map_map]
      rfl
    . exact if_pos hmem
    . rfl
  . apply simulates_skip h (.insertBefore l v mark) (.elem none) _ (if_neg hmem) rfl rfl
    unfold exec insertBefore
    dsimp only
    rcases not_member h he hl hmem with hne | hnone
    . rw [if_pos hne]
      rfl
    . rw [hnone]
      split
      all_goals rfl

theorem simulates_insertAfter (he : mark ∈ issued ∧ Fresh s mark) (v : T)
    : ∃ s' r, Simulates s m issued since (.insertAfter l v mark) s' r := by
  by_cases hmem : mark.cell ∈ m.seqs l
  . obtain ⟨hlist, ps, _, hps, hseq⟩ := h.sides he.1 hl hmem
    have hnodup := not_mem_of_nodup (hseq ▸ h.nodup l hl)
    have hsome := nodes_eq (hps.id_some (p := (mark.id, mark.cell)) (by simp))
    rw [append_cons] at hps
    apply simulates_insert h hl hps (by simpa using hseq) v (Sequence.insertAfter mark.cell)
    . rw [hseq, Sequence.insertAfter_append hnodup]
      simp
    . unfold exec insertAfter
      dsimp only
      have hlast : lastId (ps ++ [(mark.id, mark.cell)]) = mark.id := lastId_concat ..
      rw [if_neg (not_not_intro hlist), if_neg (by simp [hsome]), hlast, Option.map_map]
      rfl
    . exact if_pos hmem
    . rfl
  . apply simulates_skip h (.insertAfter l v mark) (.elem none) _ (if_neg hmem) rfl rfl
    unfold exec insertAfter
    dsimp only
    rcases not_member h he hl hmem with hne | hnone
    . rw [if_pos hne]
      rfl
    . rw [if_pos hnone]
      split
      all_goals rfl

theorem erase_side (hseq : m.seqs l = ps.map Prod.snd ++ e.cell :: qs.map Prod.snd)
    : (m.seqs l).erase e.cell = (ps ++ qs).map Prod.snd := by
  have hnot := not_mem_of_nodup (hseq ▸ h.nodup l hl)
  rw [hseq, erase_append_right _ hnot, erase_cons_head, map_append]

theorem simulates_move (hps : (s.lists l).Holds (ps ++ (e.id, e.cell) :: qs))
    (hseq : m.seqs l = ps.map Prod.snd ++ e.cell :: qs.map Prod.snd) (hplace : ps ++ qs = rs ++ ts)
    (hop : s.exec op = (((s.lists l).move e.id (lastId rs)).map (s.set l)).map fun s => (s, .none))
    (hmodel : m.exec (op.map Element.toElem) = (m.set l (rs.map Prod.snd ++ e.cell :: ts.map Prod.snd), .none))
    (hstamp : op.stamp m since = since) : ∃ s' r, Simulates s m issued since op s' r := by
  obtain ⟨inner, hmove, hholds, _, hid⟩ := hps.move_spec hplace
  have hperm : (rs ++ (e.id, e.cell) :: ts).Perm (ps ++ (e.id, e.cell) :: qs) :=
    perm_middle.trans (hplace ▸ perm_middle.symm)
  have hseq' : m.seqs l = (ps ++ (e.id, e.cell) :: qs).map Prod.snd := by simpa using hseq
  have hagrees := h.set hl hps hseq' hholds (fun p hp => hperm.mem_iff.mp hp)
    ((hperm.map Prod.snd).nodup_iff.mpr (hseq' ▸ h.nodup l hl)) hid
  refine ⟨s.set l inner, .none, ?_, ?_, ?_⟩
  . rw [hop, hmove]
    rfl
  . rw [hmodel]
    rfl
  . rw [hmodel, hstamp]
    rwa [map_append, map_cons] at hagrees

theorem two_sides (he : e ∈ issued) (hmark : mark ∈ issued)
    (hmem : e.cell ∈ m.seqs l) (hmem' : mark.cell ∈ m.seqs l) (hne : e.cell ≠ mark.cell)
    : e.list = l ∧ mark.list = l ∧ e.id ≠ mark.id ∧ ((s.lists l).nodes e.id).isSome ∧ ((s.lists l).nodes mark.id).isSome ∧
        ∃ ps qs rs ts, (s.lists l).Holds (ps ++ (e.id, e.cell) :: qs) ∧
        m.seqs l = ps.map Prod.snd ++ e.cell :: qs.map Prod.snd ∧ ps ++ qs = rs ++ (mark.id, mark.cell) :: ts ∧
        (m.seqs l).erase e.cell = rs.map Prod.snd ++ mark.cell :: ts.map Prod.snd ∧ mark.cell ∉ rs.map Prod.snd ∧
        ((s.lists l).prev mark.id = lastId rs ∨
          ((s.lists l).prev mark.id = e.id ∧ ps = rs ∧ qs = (mark.id, mark.cell) :: ts)) := by
  obtain ⟨hlist, ps, qs, hps, hseq⟩ := h.sides he hl hmem
  obtain ⟨hlist', hcell'⟩ := (h.handles mark hmark).place l hl hmem'
  have hnodup := h.nodup l hl
  have hpair : (mark.id, mark.cell) ∈ ps ++ (e.id, e.cell) :: qs := hps.mem_of_cell hcell'
  have hid : e.id ≠ mark.id := by
    intro heq
    have hcell := ((h.handles e he).place l hl hmem).2
    rw [heq, hcell'] at hcell
    exact hne (some.inj hcell).symm
  have hsplit : ∃ rs ts, ps ++ qs = rs ++ (mark.id, mark.cell) :: ts ∧
      ((s.lists l).prev mark.id = lastId rs ∨
          ((s.lists l).prev mark.id = e.id ∧ ps = rs ∧ qs = (mark.id, mark.cell) :: ts)) := by
    rw [mem_append, mem_cons] at hpair
    rcases hpair with hmem | heq | hmem
    . obtain ⟨rs, ts, rfl⟩ := append_of_mem hmem
      refine ⟨rs, ts ++ qs, by simp, .inl ?_⟩
      rw [append_assoc, cons_append] at hps
      exact hps.neighbours.1
    . exact absurd (congrArg Prod.fst heq).symm hid
    obtain ⟨rs, ts, rfl⟩ := append_of_mem hmem
    refine ⟨ps ++ rs, ts, by simp, ?_⟩
    rw [← cons_append, ← append_assoc] at hps
    have hprev : (s.lists l).prev mark.id = lastId (ps ++ (e.id, e.cell) :: rs) := hps.neighbours.1
    rw [hprev]
    rcases eq_nil_or_concat rs with hnil | hconcat
    . right
      simp [hnil, lastId]
    . left
      obtain ⟨_, _, rfl⟩ := hconcat
      rw [concat_eq_append, ← cons_append, ← append_assoc, ← append_assoc,
        lastId_concat, lastId_concat]
  obtain ⟨rs, ts, hsplit, hprev⟩ := hsplit
  have herase' : (m.seqs l).erase e.cell = rs.map Prod.snd ++ mark.cell :: ts.map Prod.snd := by
    rw [erase_side h hl hseq, hsplit, map_append, map_cons]
  exact ⟨hlist, hlist'.symm, hid, hps.id_some (p := (e.id, e.cell)) (by simp), hps.id_some hpair, ps, qs, rs, ts, hps,
    hseq, hsplit, herase', not_mem_of_nodup (herase' ▸ hnodup.erase _), hprev⟩

variable (he : e ∈ issued ∧ Fresh s e)
include he

theorem simulates_remove : ∃ s' r, Simulates s m issued since (.remove l e) s' r := by
  by_cases hmem : e.cell ∈ m.seqs l
  . obtain ⟨hlist, ps, qs, hps, hseq⟩ := h.sides he.1 hl hmem
    have hnodup := h.nodup l hl
    have herase := erase_side h hl hseq
    obtain ⟨hholds, _, hid⟩ := hps.remove_spec
    have hsome := hps.id_some (p := (e.id, e.cell)) (by simp)
    refine ⟨s.set l ((s.lists l).remove e.id), .value (s.cells e.cell), ?_, ?_, ?_⟩
    . unfold exec State.remove
      dsimp only
      rw [if_pos ⟨hlist, hsome, (h.handles e he.1).id⟩]
    . simp [h.cells]
    have := h.set hl hps (by simpa using hseq) hholds (by simp; grind) (herase ▸ hnodup.erase _) hid
    rwa [← herase] at this
  . refine ⟨s, .value (s.cells e.cell), ?_, ?_, ?_⟩
    . unfold exec State.remove
      dsimp only
      rw [if_neg]
      rintro ⟨hlist, hsome, _⟩
      exact hmem ((h.member_iff he.1 he.2 hl).mpr ⟨hlist, hsome⟩)
    . simp [h.cells]
    . have : m.set l ((m.seqs l).erase e.cell) = m := by
        rw [erase_of_not_mem hmem]
        simp [Model.set]
      have heq : (m.exec (Op.map Element.toElem (.remove l e))).1 = m := this
      rwa [heq]

theorem simulates_moveTo (link behind : Node → Nat) (place : List Nat → List Nat)
    (hop : s.exec op = Option.map (fun s => (s, .none)) (
      if e.list ≠ l then
        some s
      else
        match (s.lists l).nodes rootId with
        | none => some s
        | some root =>
          if link root = e.id then
            some s
          else if (s.lists l).nodes e.id = none ∨ e.id = rootId then
            some s
          else
            ((s.lists l).move e.id (behind root)).map (s.set l)))
    (hmodel : m.exec (op.map Element.toElem) =
      (if e.cell ∈ m.seqs l then m.set l (place ((m.seqs l).erase e.cell)) else m, .none))
    (hstamp : op.stamp m since = since)
    (hplace : ∀ ps qs root, (s.lists l).Holds (ps ++ (e.id, e.cell) :: qs) → (s.lists l).nodes rootId = some root →
      ∃ rs ts, ps ++ qs = rs ++ ts ∧ place ((ps ++ qs).map Prod.snd) = rs.map Prod.snd ++ e.cell :: ts.map Prod.snd ∧
        (link root = e.id ∧ ps = rs ∧ qs = ts ∨ link root ≠ e.id ∧ behind root = lastId rs))
    : ∃ s' r, Simulates s m issued since op s' r := by
  by_cases hmem : e.cell ∈ m.seqs l
  . obtain ⟨hlist, ps, qs, hps, hseq⟩ := h.sides he.1 hl hmem
    have hroot := nodes_eq hps.mem_root
    have hsome := hps.id_some (p := (e.id, e.cell)) (by simp)
    obtain ⟨_, _, hsplit, hrs, hlink⟩ := hplace ps qs _ hps hroot
    rw [if_neg (not_not_intro hlist), hroot] at hop
    rw [if_pos hmem, erase_side h hl hseq, hrs] at hmodel
    dsimp only at hop
    rcases hlink with ⟨heq, rfl, rfl⟩ | ⟨hne, hlast⟩
    . rw [if_pos heq] at hop
      apply simulates_skip h op .none hop _ rfl hstamp
      rw [hmodel, ← hseq]
      simp [Model.set]
    . rw [if_neg hne, if_neg (not_or.mpr ⟨isSome_iff_ne_none.mp hsome, (h.handles e he.1).id⟩), hlast] at hop
      exact simulates_move h hl hps hseq hsplit hop hmodel hstamp
  . rw [if_neg hmem] at hmodel
    apply simulates_skip h op .none _ hmodel rfl hstamp
    rw [hop]
    rcases not_member h he hl hmem with hne | hnone
    . rw [if_pos hne]
      rfl
    split
    . rfl
    split
    . rfl
    split
    . rfl
    rw [if_pos (.inl hnone)]
    rfl

theorem simulates_moveToFront : ∃ s' r, Simulates s m issued since (.moveToFront l e) s' r := by
  apply simulates_moveTo h hl he Node.next (fun _ => rootId) (e.cell :: ·) rfl rfl rfl
  intro ps qs root hps hroot
  have hnext : root.next = headId (ps ++ (e.id, e.cell) :: qs) := by
    rw [← (show (s.lists l).Holds ([] ++ (ps ++ (e.id, e.cell) :: qs)) from hps).links.1]
    simp [ListInner.next, ListInner.lastId, hroot]
  refine ⟨[], ps ++ qs, rfl, rfl, ?_⟩
  rw [hnext]
  cases ps with
  | nil => exact .inl ⟨rfl, rfl, rfl⟩
  | cons p =>
    refine .inr ⟨?_, rfl⟩
    have hnodup := hps.ring.nodup
    rw [map_append, map_cons, map_cons, cons_append, nodup_cons] at hnodup
    intro heq
    apply hnodup.1
    rw [show p.1 = e.id from heq]
    simp

theorem simulates_moveToBack : ∃ s' r, Simulates s m issued since (.moveToBack l e) s' r := by
  apply simulates_moveTo h hl he Node.prev Node.prev (· ++ [e.cell]) rfl rfl rfl
  intro ps qs root hps hroot
  have hprev : root.prev = lastId (ps ++ (e.id, e.cell) :: qs) := by
    rw [← lastId_eq hps]
    simp [ListInner.prev, hroot]
  refine ⟨ps ++ qs, [], by simp, rfl, ?_⟩
  rw [hprev]
  rcases eq_nil_or_concat qs with hnil | hconcat
  . subst hnil
    exact .inl ⟨lastId_concat .., by simp⟩
  obtain ⟨_, _, rfl⟩ := hconcat
  rw [concat_eq_append] at *
  refine .inr ?_
  rw [← cons_append, ← append_assoc, ← append_assoc, lastId_concat, lastId_concat]
  refine ⟨?_, rfl⟩
  have hnodup := hps.ring.nodup
  rw [map_append, map_cons, nodup_append, nodup_cons] at hnodup
  intro heq
  apply hnodup.2.1.1
  rw [← heq]
  simp

section

variable (hmark : mark ∈ issued ∧ Fresh s mark)
include hmark

theorem skip_of_not_both (hnot : ¬ (e.cell ∈ m.seqs l ∧ mark.cell ∈ m.seqs l ∧ e.cell ≠ mark.cell))
    (f : Node → Option (State T))
    : (if e.list ≠ l ∨ e.id = mark.id ∨ mark.list ≠ l then some s
      else match (s.lists l).nodes e.id, (s.lists l).nodes mark.id with
        | some _, some n => f n
        | _, _ => some s) = some s := by
  by_cases hmem : e.cell ∈ m.seqs l
  . by_cases hmem' : mark.cell ∈ m.seqs l
    . obtain ⟨_, hcell⟩ := (h.handles e he.1).place l hl hmem
      obtain ⟨_, hcell'⟩ := (h.handles mark hmark.1).place l hl hmem'
      obtain ⟨_, hps, hseq⟩ := h.lists l hl
      have heq : e.cell = mark.cell := by
        apply Decidable.byContradiction
        exact fun hne => hnot ⟨hmem, hmem', hne⟩
      have := inj_on_of_nodup_map (hseq ▸ h.nodup l hl) (hps.mem_of_cell hcell) (hps.mem_of_cell hcell') heq
      exact if_pos (.inr (.inl (congrArg Prod.fst this)))
    . rcases not_member h hmark hl hmem' with hne | hnone
      . exact if_pos (.inr (.inr hne))
      . simp [hnone]
  . rcases not_member h he hl hmem with hne | hnone
    . exact if_pos (.inl hne)
    . simp [hnone]

theorem simulates_moveBefore : ∃ s' r, Simulates s m issued since (.moveBefore l e mark) s' r := by
  by_cases hboth : e.cell ∈ m.seqs l ∧ mark.cell ∈ m.seqs l ∧ e.cell ≠ mark.cell
  . obtain ⟨hlist, hlist', hid, hsome, hsome', _, _, rs, ts, hps, hseq, hsplit, herase, hnot, hprev⟩ :=
      two_sides h hl he.1 hmark.1 hboth.1 hboth.2.1 hboth.2.2
    have hexec : s.exec (.moveBefore l e mark) =
        (((s.lists l).move e.id ((s.lists l).prev mark.id)).map (s.set l)).map fun s => (s, .none) := by
      unfold exec moveBefore
      dsimp only
      rw [if_neg (by simp [hlist, hlist', hid]), nodes_eq hsome, nodes_eq hsome']
    have hmodel : m.exec (Op.map Element.toElem (.moveBefore l e mark)) =
        (m.set l (rs.map Prod.snd ++ e.cell :: ((mark.id, mark.cell) :: ts).map Prod.snd), .none) := by
      refine Prod.ext ?_ rfl
      refine (if_pos hboth).trans ?_
      unfold Element.toElem
      rw [herase, Sequence.insertBefore_append hnot]
      rfl
    rcases hprev with hprev | ⟨hprev, rfl, rfl⟩
    . rw [hprev] at hexec
      exact simulates_move h hl hps hseq hsplit hexec hmodel rfl
    apply simulates_skip h (.moveBefore l e mark) .none _ _ rfl rfl
    . rw [hexec, hprev]
      unfold move
      rw [if_pos rfl]
      simp [State.set]
    . rw [hmodel, ← hseq]
      simp [Model.set]
  . apply simulates_skip h (.moveBefore l e mark) .none _ (Prod.ext (if_neg hboth) rfl) rfl rfl
    exact congrArg (Option.map _) (skip_of_not_both h hl he hmark hboth _)

theorem simulates_moveAfter : ∃ s' r, Simulates s m issued since (.moveAfter l e mark) s' r := by
  by_cases hboth : e.cell ∈ m.seqs l ∧ mark.cell ∈ m.seqs l ∧ e.cell ≠ mark.cell
  . obtain ⟨hlist, hlist', hid, hsome, hsome', _, _, rs, _, hps, hseq, hsplit, herase, hnot, _⟩ :=
      two_sides h hl he.1 hmark.1 hboth.1 hboth.2.1 hboth.2.2
    have hlast : lastId (rs ++ [(mark.id, mark.cell)]) = mark.id := lastId_concat ..
    rw [append_cons] at hsplit
    apply simulates_move h hl hps hseq hsplit _ _ rfl
    . unfold exec moveAfter
      dsimp only
      rw [if_neg (by simp [hlist, hlist', hid]), nodes_eq hsome, nodes_eq hsome', hlast]
    refine Prod.ext ?_ rfl
    refine (if_pos hboth).trans ?_
    unfold Element.toElem
    rw [herase, Sequence.insertAfter_append hnot]
    simp
  . apply simulates_skip h (.moveAfter l e mark) .none _ (Prod.ext (if_neg hboth) rfl) rfl rfl
    exact congrArg (Option.map _) (skip_of_not_both h hl he hmark hboth _)

end

end Members

section

variable (h : Agrees s m issued since)
include h

theorem mono (hsub : ∀ e ∈ issued', e ∈ issued) : Agrees s m issued' since :=
  { h with handles := fun e he => h.handles e (hsub e he) }

theorem snapshotForward_eq (hl : l < m.nlists) : s.snapshotForward l = some ((m.seqs l).map m.cells) := by
  obtain ⟨ps, hps, hseq⟩ := h.lists l hl
  have hholds : (s.lists l).Holds ([] ++ ps) := hps
  have hnext : (s.lists l).next rootId = headId ps := hholds.links.1
  unfold snapshotForward
  rw [nodes_eq hps.mem_root, hnext]
  dsimp
  rw [hholds.snapshot_next (by rw [hps.len]; simp), hseq, ← h.cells]
  rfl

theorem snapshotBackward_eq (hl : l < m.nlists) : s.snapshotBackward l = some ((m.seqs l).reverse.map m.cells) := by
  obtain ⟨ps, hps, hseq⟩ := h.lists l hl
  have hholds : (s.lists l).Holds (ps ++ []) := by simpa using hps
  unfold snapshotBackward
  rw [nodes_eq hps.mem_root, lastId_eq hps]
  dsimp
  rw [hholds.snapshot_prev (by rw [hps.len]; simp), hseq, ← h.cells, ← map_reverse]
  rfl

end

section

variable (vs : List T) (h : Agrees s m issued since) (hl : l < m.nlists)
include vs h hl

theorem foldlM_pushBack : ∃ s', vs.foldlM (fun s v => do
          let root ← (s.lists l).nodes rootId
          let (s, _) ← s.insertAt l v root.prev
          return s) s = some s' ∧
        Agrees s' (vs.foldl (fun m v => (m.pushBack l v).1) m) issued since := by
  induction vs generalizing s m with
  | nil => exact ⟨s, rfl, h⟩
  | cons v _ ih =>
    obtain ⟨ps, hps, hseq⟩ := h.lists l hl
    have hholds : (s.lists l).Holds (ps ++ []) := by simpa using hps
    obtain ⟨_, e, hinsert, _, hagrees⟩ := h.insertAt hl hholds (by simpa using hseq) v
      (fun c seq => seq ++ [c]) (by rw [hseq]; rfl)
    obtain ⟨s', hfold, hagrees'⟩ := ih (mono hagrees (fun e he => mem_cons_of_mem _ he)) hl
    refine ⟨s', ?_, hagrees'⟩
    rw [foldlM_cons, ← hfold, nodes_eq hps.mem_root, lastId_eq hps]
    dsimp
    rw [hinsert]
    rfl

theorem foldlM_pushFront : ∃ s', vs.foldlM (fun s v => (s.insertAt l v rootId).map Prod.fst) s = some s' ∧
        Agrees s' (vs.foldl (fun m v => (m.pushFront l v).1) m) issued since := by
  induction vs generalizing s m with
  | nil => exact ⟨s, rfl, h⟩
  | cons v _ ih =>
    obtain ⟨ps, hps, hseq⟩ := h.lists l hl
    have hholds : (s.lists l).Holds ([] ++ ps) := hps
    obtain ⟨s1, e, hinsert, _, hagrees⟩ := h.insertAt hl hholds hseq v
      (fun c seq => c :: seq) (by rw [hseq]; rfl)
    obtain ⟨s', hfold, hagrees'⟩ := ih (mono hagrees (fun e he => mem_cons_of_mem _ he)) hl
    have hinsert : s.insertAt l v rootId = some (s1, e) := hinsert
    refine ⟨s', ?_, hagrees'⟩
    rwa [foldlM_cons, hinsert]

end

section

variable (h : Agrees s m issued since) (hl : l < m.nlists) (hother : other < m.nlists)
include h hl hother

theorem simulates_pushBackList : ∃ s' r, Simulates s m issued since (.pushBackList l other) s' r := by
  obtain ⟨_, hps, _⟩ := h.lists l hl
  obtain ⟨s', hfold, hagrees⟩ := foldlM_pushBack ((m.seqs other).map m.cells) h hl
  refine ⟨s', .none, ?_, rfl, hagrees⟩
  unfold exec pushBackList
  dsimp only
  rw [snapshotForward_eq h hother, hps.lazyInit_eq, set_lists_self]
  exact congrArg (Option.map _) hfold

theorem simulates_pushFrontList : ∃ s' r, Simulates s m issued since (.pushFrontList l other) s' r := by
  obtain ⟨_, hps, _⟩ := h.lists l hl
  obtain ⟨s', hfold, hagrees⟩ := foldlM_pushFront ((m.seqs other).reverse.map m.cells) h hl
  refine ⟨s', .none, ?_, rfl, hagrees⟩
  unfold exec pushFrontList
  dsimp only
  rw [snapshotBackward_eq h hother, hps.lazyInit_eq, set_lists_self]
  exact congrArg (Option.map _) hfold

end

section Handles

variable (h : Agrees s m issued since)
include h

attribute [local simp] comp_def

theorem simulates_read (op : Op Element T) (o : Option (Nat × Nat)) (hl : l < m.nlists)
    (hps : (s.lists l).Holds ps) (hseq : m.seqs l = ps.map Prod.snd) (hmem : ∀ p ∈ o, p ∈ ps)
    (hop : s.exec op = some (s, .elem (o.map fun p => { list := l, id := p.1, cell := p.2 })))
    (hmodel : m.exec (op.map Element.toElem) = (m, .elem (o.map fun p => { list := l, cell := p.2 })))
    (hstamp : op.stamp m since = since) : ∃ s' r, Simulates s m issued since op s' r := by
  refine ⟨s, _, hop, ?_, ?_⟩
  . rw [hmodel]
    simp
  . rw [hmodel, hstamp]
    cases o with
    | none => exact h
    | some p => exact h.issue hl hps hseq (hmem p rfl)

theorem simulates_front (hl : l < m.nlists) : ∃ s' r, Simulates s m issued since (.front l) s' r := by
  obtain ⟨ps, hps, hseq⟩ := h.lists l hl
  apply simulates_read h (.front l) ps.head? hl hps hseq _ _ _ rfl
  . intro p hp
    exact mem_of_mem_head? hp
  . unfold exec
    dsimp only
    rw [front_eq hps]
  . simp [hseq]

theorem simulates_back (hl : l < m.nlists) : ∃ s' r, Simulates s m issued since (.back l) s' r := by
  obtain ⟨ps, hps, hseq⟩ := h.lists l hl
  apply simulates_read h (.back l) ps.getLast? hl hps hseq _ _ _ rfl
  . intro p hp
    exact mem_of_getLast? hp
  . unfold exec
    dsimp only
    rw [back_eq hps]
  . simp [hseq]

section

variable (he : e ∈ issued ∧ Fresh s e)
include he

theorem next_eq_none (hmem : e.cell ∉ m.seqs e.list) : s.next e = none ∧ s.prev e = none := by
  rcases not_member h he (h.handles e he.1).list hmem with hne | hnone
  . contradiction
  unfold State.next State.prev
  rw [hnone]
  exact ⟨rfl, rfl⟩

theorem simulates_next : ∃ s' r, Simulates s m issued since (.next e) s' r := by
  have hl := (h.handles e he.1).list
  by_cases hmem : e.cell ∈ m.seqs e.list
  . obtain ⟨_, _, qs, hps, hseq⟩ := h.sides he.1 hl hmem
    have hnot := not_mem_of_nodup (hseq ▸ h.nodup _ hl)
    apply simulates_read h (.next e) qs.head? hl hps (by simpa using hseq) _ _ _ rfl
    . intro p hp
      have := mem_of_mem_head? hp
      simp [this]
    . unfold exec
      dsimp only
      rw [next_eq rfl hps]
    . simp only [Model.exec, Op.map, Element.toElem]
      rw [hseq, Sequence.after_append hnot]
      simp
  . apply simulates_skip h (.next e) (.elem none) _ _ rfl rfl
    . unfold exec
      dsimp only
      rw [(next_eq_none h he hmem).1]
    . simp only [Model.exec, Op.map, Element.toElem]
      rw [Sequence.after_eq_none hmem]
      rfl

theorem simulates_prev : ∃ s' r, Simulates s m issued since (.prev e) s' r := by
  have hl := (h.handles e he.1).list
  by_cases hmem : e.cell ∈ m.seqs e.list
  . obtain ⟨_, ps, qs, hps, hseq⟩ := h.sides he.1 hl hmem
    have hrev : (m.seqs e.list).reverse = qs.reverse.map Prod.snd ++ e.cell :: ps.reverse.map Prod.snd := by
      rw [hseq]
      simp
    have hnot := not_mem_of_nodup (hrev ▸ nodup_reverse.mpr (h.nodup _ hl))
    apply simulates_read h (.prev e) ps.getLast? hl hps (by simpa using hseq) _ _ _ rfl
    . intro p hp
      have := mem_of_getLast? hp
      simp [this]
    . unfold exec
      dsimp only
      rw [prev_eq rfl hps]
    . simp only [Model.exec, Op.map, Element.toElem]
      rw [hrev, Sequence.after_append hnot]
      simp
  . apply simulates_skip h (.prev e) (.elem none) _ _ rfl rfl
    . unfold exec
      dsimp only
      rw [(next_eq_none h he hmem).2]
    . simp only [Model.exec, Op.map, Element.toElem]
      rw [Sequence.after_eq_none (by simpa using hmem)]
      rfl

end

end Handles

def Op.lists : Op ε T → List Nat
  | .init l | .pushFront l _ | .pushBack l _ | .insertBefore l _ _ | .insertAfter l _ _ | .remove l _
  | .moveToFront l _ | .moveToBack l _ | .moveBefore l _ _ | .moveAfter l _ _ | .len l | .front l | .back l => [l]
  | .pushBackList l other | .pushFrontList l other => [l, other]
  | .new | .next _ | .prev _ | .value _ | .setValue _ _ => []

def Op.handles : Op ε T → List ε
  | .insertBefore _ _ e | .insertAfter _ _ e | .remove _ e | .moveToFront _ e | .moveToBack _ e | .next e | .prev e
  | .value e | .setValue e _ => [e]
  | .moveBefore _ e mark | .moveAfter _ e mark => [e, mark]
  | .new | .init _ | .pushFront _ _ | .pushBack _ _ | .pushBackList _ _ | .pushFrontList _ _ | .len _ | .front _
  | .back _ => []

theorem simulates (op : Op Element T) (h : Agrees s m issued since) (hlists : ∀ l ∈ op.lists, l < m.nlists)
    (hhandles : ∀ e ∈ op.handles, e ∈ issued ∧ Fresh s e) : ∃ s' r, Simulates s m issued since op s' r := by
  cases op
  all_goals simp only [Op.lists, Op.handles, forall_mem_cons, not_mem_nil, false_imp_iff, implies_true, and_true]
    at hlists hhandles
  case new => exact simulates_new h
  case init => exact simulates_init h hlists
  case pushFront v => exact simulates_pushFront h hlists v
  case pushBack v => exact simulates_pushBack h hlists v
  case insertBefore v _ => exact simulates_insertBefore h hlists hhandles v
  case insertAfter v _ => exact simulates_insertAfter h hlists hhandles v
  case remove => exact simulates_remove h hlists hhandles
  case moveToFront => exact simulates_moveToFront h hlists hhandles
  case moveToBack => exact simulates_moveToBack h hlists hhandles
  case moveBefore => exact simulates_moveBefore h hlists hhandles.1 hhandles.2
  case moveAfter => exact simulates_moveAfter h hlists hhandles.1 hhandles.2
  case pushBackList => exact simulates_pushBackList h hlists.1 hlists.2
  case pushFrontList => exact simulates_pushFrontList h hlists.1 hlists.2
  case len l =>
    obtain ⟨_, hps, hseq⟩ := h.lists l hlists
    apply simulates_skip h (.len l) (.int (s.lists l).len) rfl _ rfl rfl
    simp [hseq, hps.len]
  case front => exact simulates_front h hlists
  case back => exact simulates_back h hlists
  case next => exact simulates_next h hhandles
  case prev => exact simulates_prev h hhandles
  case value e =>
    apply simulates_skip h (.value e) (.value (s.cells e.cell)) rfl _ rfl rfl
    simp [h.cells]
  case setValue e v => exact ⟨_, .none, rfl, rfl, h.setValue e.cell v⟩

end Container
