import Goish.Container.Impl.List
import Goish.Data.LinkedList

open List Function
open Function (update)

namespace Container

namespace ListInner

variable {l l' : ListInner} {ps qs rs : List (Nat × Nat)}

def next (l : ListInner) (i : Nat) : Nat :=
  ((l.nodes i).map Node.next).getD rootId

def prev (l : ListInner) (i : Nat) : Nat :=
  ((l.nodes i).map Node.prev).getD rootId

def cell (l : ListInner) (i : Nat) : Option Nat :=
  (l.nodes i).bind Node.value

structure Holds (l : ListInner) (ps : List (Nat × Nat)) : Prop where
  ring : LinkedList.IsRing l.next l.prev rootId (ps.map Prod.fst)
  some_iff : ∀ i, (l.nodes i).isSome ↔ i = rootId ∨ i ∈ ps.map Prod.fst
  cells : ∀ p ∈ ps, l.cell p.1 = some p.2
  root : l.cell rootId = none
  fresh : ∀ p ∈ ps, p.1 < l.nextId
  pos : rootId < l.nextId
  len : l.len = ps.length

def put (l : ListInner) (i : Nat) (n : Node) : ListInner :=
  { l with nodes := update l.nodes i (some n) }

section

variable (l : ListInner) (i : Nat) (n : Node)

@[simp]
theorem next_put : (l.put i n).next = update l.next i n.next := by
  funext j
  by_cases hj : j = i
  all_goals simp [put, next, hj]

@[simp]
theorem prev_put : (l.put i n).prev = update l.prev i n.prev := by
  funext j
  by_cases hj : j = i
  all_goals simp [put, prev, hj]

@[simp]
theorem cell_put : (l.put i n).cell = update l.cell i n.value := by
  funext j
  by_cases hj : j = i
  all_goals simp [put, cell, hj]

@[simp]
theorem isSome_put (j : Nat)
    : ((l.put i n).nodes j).isSome ↔ j = i ∨ (l.nodes j).isSome := by
  by_cases hj : j = i
  all_goals simp [put, hj]

end

section

variable (h : (l.nodes i).isSome)
include h

theorem nodes_eq : l.nodes i = some { next := l.next i, prev := l.prev i, value := l.cell i } := by
  cases hn : l.nodes i with
  | none => simp [hn] at h
  | some => simp [next, prev, cell, hn]

theorem isSome_put_iff (n : Node) (j : Nat) : ((l.put i n).nodes j).isSome ↔ (l.nodes j).isSome := by
  rw [isSome_put]
  exact or_iff_right_of_imp fun heq => heq ▸ h

theorem setNext_eq (x : Nat) : l.setNext i x = some (l.put i { next := x, prev := l.prev i, value := l.cell i }) := by
  rw [setNext, nodes_eq h]
  rfl

theorem setPrev_eq (x : Nat) : l.setPrev i x = some (l.put i { next := l.next i, prev := x, value := l.cell i }) := by
  rw [setPrev, nodes_eq h]
  rfl

theorem setLinks_eq (x y : Nat) : l.setLinks i x y = some (l.put i { next := y, prev := x, value := l.cell i }) := by
  rw [setLinks, nodes_eq h]
  rfl

end

theorem insert_links (c : Nat) (hm : (l.nodes m).isSome) (hc : (l.nodes (l.next m)).isSome)
    : ∃ l', l.insert c m = some (l', l.nextId) ∧
        l'.next = update (update l.next l.nextId (l.next m)) m l.nextId ∧
        l'.prev = update (update l.prev l.nextId m) (l.next m) l.nextId ∧
        l'.cell = update l.cell l.nextId (some c) ∧
        (∀ j, (l'.nodes j).isSome ↔ j = l.nextId ∨ (l.nodes j).isSome) ∧
        l'.nextId = l.nextId + 1 ∧ l'.len = l.len + 1 := by
  let l1 := put { l with nextId := l.nextId + 1 } l.nextId { next := l.next m, prev := m, value := some c }
  let l2 := l1.put m { next := l.nextId, prev := l1.prev m, value := l1.cell m }
  let l3 := l2.put (l.next m) { next := l2.next (l.next m), prev := l.nextId, value := l2.cell (l.next m) }
  have hm1 : (l1.nodes m).isSome := (isSome_put ..).mpr (.inr hm)
  have hc2 : (l2.nodes (l.next m)).isSome := (isSome_put_iff hm1 ..).mpr ((isSome_put ..).mpr (.inr hc))
  have hset1 : l1.setNext m l.nextId = some l2 := setNext_eq hm1 _
  have hset2 : l2.setPrev (l.next m) l.nextId = some l3 := setPrev_eq hc2 _
  refine ⟨{ l3 with len := l3.len + 1 }, ?_, ?_, ?_, ?_, ?_, rfl, rfl⟩
  . unfold insert
    rw [nodes_eq hm]
    have : (do
        let l' ← l1.setNext m l.nextId
        let l' ← l'.setPrev (l.next m) l.nextId
        return ({ l' with len := l'.len + 1 }, l.nextId)) = some ({ l3 with len := l3.len + 1 }, l.nextId) := by
      rw [hset1]
      dsimp
      rw [hset2]
      rfl
    exact this
  . have : l3.next = update (update l.next l.nextId (l.next m)) m l.nextId := by
      rw [next_put, update_eq_self, next_put, next_put]
      rfl
    exact this
  . have : l3.prev = update (update l.prev l.nextId m) (l.next m) l.nextId := by
      rw [prev_put, prev_put, update_eq_self, prev_put]
      rfl
    exact this
  . have : l3.cell = update l.cell l.nextId (some c) := by
      rw [cell_put, update_eq_self, cell_put, update_eq_self, cell_put]
      rfl
    exact this
  . intro j
    have : (l3.nodes j).isSome ↔ j = l.nextId ∨ (l.nodes j).isSome := by
      rw [isSome_put_iff hc2, isSome_put_iff hm1, isSome_put]
    exact this

theorem unlink_links (hp : (l.nodes (l.prev e)).isSome) (hn : (l.nodes (l.next e)).isSome)
    : ∃ l1 l2, l.setNext (l.prev e) (l.next e) = some l1 ∧ l1.setPrev (l.next e) (l.prev e) = some l2 ∧
        l2.next = update l.next (l.prev e) (l.next e) ∧ l2.prev = update l.prev (l.next e) (l.prev e) ∧
        l2.cell = l.cell ∧ (∀ j, (l2.nodes j).isSome ↔ (l.nodes j).isSome) ∧ l2.nextId = l.nextId ∧ l2.len = l.len := by
  have hn1 := (isSome_put_iff hp { next := l.next e, prev := l.prev (l.prev e), value := l.cell (l.prev e) } _).mpr hn
  refine ⟨_, _, setNext_eq hp _, setPrev_eq hn1 _, ?_, ?_, ?_, ?_, rfl, rfl⟩
  . rw [next_put, update_eq_self, next_put]
  . rw [prev_put, prev_put, update_eq_self]
  . rw [cell_put, update_eq_self, cell_put, update_eq_self]
  . intro j
    rw [isSome_put_iff hn1, isSome_put_iff hp]

theorem remove_links (he : (l.nodes e).isSome) (hp : (l.nodes (l.prev e)).isSome) (hn : (l.nodes (l.next e)).isSome)
    : (∀ j, j ≠ e → (l.remove e).next j = update l.next (l.prev e) (l.next e) j) ∧
        (∀ j, j ≠ e → (l.remove e).prev j = update l.prev (l.next e) (l.prev e) j) ∧
        (l.remove e).cell = update l.cell e none ∧
        (∀ j, ((l.remove e).nodes j).isSome ↔ j ≠ e ∧ (l.nodes j).isSome) ∧
        (l.remove e).nextId = l.nextId ∧ (l.remove e).len = l.len - 1 := by
  obtain ⟨_, l2, hset1, hset2, hnext, hprev, hcell, hsome, hid, hlen⟩ := unlink_links hp hn
  have hremove : l.remove e = { l2 with nodes := update l2.nodes e none, len := l2.len - 1 } := by
    unfold remove
    rw [nodes_eq he]
    dsimp only
    rw [hset1, Option.getD_some, hset2, Option.getD_some]
  rw [hremove]
  refine ⟨?_, ?_, ?_, ?_, hid, congrArg (· - 1) hlen⟩
  . intro j hj
    rw [← hnext]
    simp [next, hj]
  . intro j hj
    rw [← hprev]
    simp [prev, hj]
  . rw [← hcell]
    funext j
    by_cases hj : j = e
    all_goals simp [cell, hj]
  . intro j
    rw [← hsome]
    by_cases hj : j = e
    all_goals simp [hj]

theorem move_links (hne : e ≠ pos) (he : (l.nodes e).isSome) (hp : (l.nodes (l.prev e)).isSome)
    (hn : (l.nodes (l.next e)).isSome) (hpos : (l.nodes pos).isSome)
    (hposNext : (l.nodes (update l.next (l.prev e) (l.next e) pos)).isSome) : ∃ l', l.move e pos = some l' ∧
        l'.next = update (update (update l.next (l.prev e) (l.next e)) e
          (update l.next (l.prev e) (l.next e) pos)) pos e ∧
        l'.prev = update (update (update l.prev (l.next e) (l.prev e)) e pos)
          (update l.next (l.prev e) (l.next e) pos) e ∧
        l'.cell = l.cell ∧ (∀ j, (l'.nodes j).isSome ↔ (l.nodes j).isSome) ∧
        l'.nextId = l.nextId ∧ l'.len = l.len := by
  obtain ⟨_, l2, hset1, hset2, hnext2, hprev2, hcell2, hsome2, hid, hlen⟩ := unlink_links hp hn
  rw [← hnext2] at hposNext ⊢
  rw [← hprev2, ← hcell2]
  let l3 := l2.put e { next := l2.next pos, prev := pos, value := l2.cell e }
  let l4 := l3.put pos { next := e, prev := l3.prev pos, value := l3.cell pos }
  let l5 := l4.put (l2.next pos) { next := l4.next (l2.next pos), prev := e, value := l4.cell (l2.next pos) }
  have he2 := (hsome2 e).mpr he
  have hpos3 : (l3.nodes pos).isSome := (isSome_put_iff he2 ..).mpr ((hsome2 pos).mpr hpos)
  have hnext4 : (l4.nodes (l2.next pos)).isSome := by
    rwa [isSome_put_iff hpos3, isSome_put_iff he2, hsome2]
  have hset3 : l2.setLinks e pos (l2.next pos) = some l3 := setLinks_eq he2 _ _
  have hset4 : l3.setNext pos e = some l4 := setNext_eq hpos3 _
  have hset5 : l4.setPrev (l2.next pos) e = some l5 := setPrev_eq hnext4 _
  refine ⟨l5, ?_, ?_, ?_, ?_, ?_, hid, hlen⟩
  . unfold move
    rw [if_neg hne, nodes_eq he]
    dsimp
    rw [hset1]
    dsimp
    rw [hset2]
    dsimp
    rw [nodes_eq ((hsome2 pos).mpr hpos)]
    dsimp
    rw [hset3]
    dsimp
    rwa [hset4]
  . rw [next_put, update_eq_self, next_put, next_put]
  . rw [prev_put, prev_put, update_eq_self, prev_put]
  . rw [cell_put, update_eq_self, cell_put, update_eq_self, cell_put, update_eq_self]
  . intro j
    rw [isSome_put_iff hnext4, isSome_put_iff hpos3, isSome_put_iff he2, hsome2]

theorem new_holds : new.Holds [] := by
  refine ⟨.empty rfl rfl, ?_, by simp, rfl, by simp, by decide, rfl⟩
  intro i
  by_cases hi : i = rootId
  all_goals simp [new, hi]

theorem Holds.lazyInit_eq (h : l.Holds ps) : l.lazyInit = l := by
  unfold lazyInit
  rw [if_pos ((h.some_iff rootId).mpr (.inl rfl))]

theorem Holds.mem_root (h : l.Holds ps) : (l.nodes rootId).isSome :=
  (h.some_iff rootId).mpr (.inl rfl)

def lastId (ps : List (Nat × Nat)) : Nat :=
  ((ps.map Prod.fst).getLast?).getD rootId

def headId (ps : List (Nat × Nat)) : Nat :=
  ((ps.map Prod.fst).head?).getD rootId

theorem lastId_eq (ps : List (Nat × Nat)) : lastId ps = headId ps.reverse := by
  unfold lastId headId
  rw [map_reverse, List.head?_reverse]

theorem headId_mem (ps : List (Nat × Nat)) : headId ps = rootId ∨ headId ps ∈ ps.map Prod.fst := by
  cases ps with
  | nil => exact .inl rfl
  | cons => exact .inr mem_cons_self

theorem lastId_mem (ps : List (Nat × Nat)) : lastId ps = rootId ∨ lastId ps ∈ ps.map Prod.fst := by
  have h := headId_mem ps.reverse
  rwa [← lastId_eq, map_reverse, mem_reverse] at h

theorem lastId_concat (ps : List (Nat × Nat)) (p : Nat × Nat) : lastId (ps ++ [p]) = p.1 := by
  simp [lastId]

section

variable (h : l.Holds (ps ++ qs))
include h

theorem Holds.links : l.next (lastId ps) = headId qs ∧ l.prev (headId qs) = lastId ps := by
  have hring := h.ring
  rw [map_append] at hring
  obtain ⟨_, _, hm, hc, hnext, hprev, _⟩ := hring.links_at
  unfold lastId headId
  rw [hm, hc]
  exact ⟨hnext, hprev⟩

theorem Holds.lastId_some : (l.nodes (lastId ps)).isSome := by
  rw [h.some_iff, map_append]
  exact (lastId_mem ps).imp_right (mem_append_left _)

theorem Holds.headId_some : (l.nodes (headId qs)).isSome := by
  rw [h.some_iff, map_append]
  exact (headId_mem qs).imp_right (mem_append_right _)

theorem Holds.insert_spec (c : Nat)
    : ∃ l', l.insert c (lastId ps) = some (l', l.nextId) ∧ l'.Holds (ps ++ (l.nextId, c) :: qs) ∧
        l'.cell = update l.cell l.nextId (some c) ∧ l'.nextId = l.nextId + 1 := by
  have hnew : l.nextId ∉ (ps ++ qs).map Prod.fst := by
    intro hmem
    obtain ⟨p, hp, _⟩ := mem_map.mp hmem
    have := h.fresh p hp
    omega
  have hne : l.nextId ≠ rootId := Nat.ne_of_gt h.pos
  have hnone : ¬ (l.nodes l.nextId).isSome := by
    rw [h.some_iff]
    exact fun hor => hor.elim hne hnew
  have hhead := h.headId_some
  rw [← h.links.1] at hhead
  obtain ⟨l', hinsert, hnext, hprev, hcell, hsome, hid, hlen⟩ := insert_links c h.lastId_some hhead
  have hm : lastId ps ≠ l.nextId := fun heq => hnone (heq ▸ h.lastId_some)
  have hc : l.next (lastId ps) ≠ l.nextId := fun heq => hnone (heq ▸ hhead)
  refine ⟨l', hinsert, ?_, hcell, hid⟩
  refine ⟨?_, ?_, ?_, ?_, ?_, ?_, ?_⟩
  . have hring := h.ring
    rw [map_append] at hring hnew
    rw [map_append, map_cons, hnext, hprev]
    exact hring.insert rfl hnew hne hm.symm hc.symm
  . intro j
    rw [hsome, h.some_iff]
    simp only [map_append, mem_append, map_cons, mem_cons]
    grind
  . intro p hp
    rw [hcell]
    rw [mem_append, mem_cons] at hp
    have hold (hp : p ∈ ps ++ qs) : update l.cell l.nextId (some c) p.1 = some p.2 := by
      rw [update_of_ne (Nat.ne_of_lt (h.fresh p hp))]
      exact h.cells p hp
    rcases hp with hp | rfl | hp
    . exact hold (mem_append_left _ hp)
    . exact update_self ..
    . exact hold (mem_append_right _ hp)
  . rw [hcell, update_of_ne hne.symm]
    exact h.root
  . intro p hp
    rw [hid]
    rw [mem_append, mem_cons] at hp
    rcases hp with hp | rfl | hp
    . exact Nat.lt_succ_of_lt (h.fresh p (mem_append_left _ hp))
    . exact Nat.lt_succ_self _
    . exact Nat.lt_succ_of_lt (h.fresh p (mem_append_right _ hp))
  . rw [hid]
    exact Nat.lt_succ_of_lt h.pos
  . rw [hlen, h.len]
    simp
    omega

end

theorem Holds.neighbours (h : l.Holds (ps ++ p :: qs)) : l.prev p.1 = lastId ps ∧ l.next p.1 = headId qs := by
  have hbefore := h.links.2
  rw [append_cons] at h
  have hafter := h.links.1
  simp only [lastId, map_append, map_cons, map_nil, List.getLast?_concat, Option.getD_some] at hafter
  exact ⟨hbefore, hafter⟩

theorem Holds.id_some (h : l.Holds ps) (hp : p ∈ ps) : (l.nodes p.1).isSome :=
  (h.some_iff _).mpr (.inr (mem_map_of_mem hp))

theorem Holds.ne_root (h : l.Holds ps) (hp : p ∈ ps) : p.1 ≠ rootId :=
  fun heq => h.ring.nil_not_mem (heq ▸ mem_map_of_mem hp)

theorem Holds.not_mem (h : l.Holds (ps ++ p :: qs)) : p.1 ∉ (ps ++ qs).map Prod.fst := by
  have hnodup := h.ring.nodup
  rw [map_append, map_cons, perm_middle.nodup_iff, ← map_append] at hnodup
  exact (nodup_cons.mp hnodup).1

theorem Holds.remove_spec (h : l.Holds (ps ++ p :: qs))
    : (l.remove p.1).Holds (ps ++ qs) ∧ (l.remove p.1).cell = update l.cell p.1 none ∧
        (l.remove p.1).nextId = l.nextId := by
  obtain ⟨hbefore, hafter⟩ := h.neighbours
  have hsplit : ps ++ p :: qs = (ps ++ [p]) ++ qs := append_cons ..
  have hmem : p ∈ ps ++ p :: qs := by simp
  obtain ⟨hnext, hprev, hcell, hsome, hid, hlen⟩ := remove_links (h.id_some hmem) (hbefore ▸ h.lastId_some)
    (hafter ▸ (hsplit ▸ h).headId_some)
  have hring := h.ring
  rw [map_append, map_cons] at hring
  have hp := h.not_mem
  have hold (q : Nat × Nat) (hq : q ∈ ps ++ qs) : q ∈ ps ++ p :: qs ∧ q.1 ≠ p.1 := by
    refine ⟨?_, fun heq => hp (heq ▸ mem_map_of_mem hq)⟩
    rw [mem_append, mem_cons]
    grind
  refine ⟨⟨?_, ?_, ?_, ?_, ?_, ?_, ?_⟩, hcell, hid⟩
  . rw [map_append]
    apply hring.unlink
    . intro y hy
      rw [hnext y hy, update_apply]
    . intro y hy
      rw [hprev y hy, update_apply]
  . intro j
    rw [hsome, h.some_iff]
    have hroot := h.ne_root hmem
    grind
  . intro q hq
    obtain ⟨hmem, hne⟩ := hold q hq
    rw [hcell, update_of_ne hne]
    exact h.cells q hmem
  . rw [hcell, update_apply]
    split
    . rfl
    . exact h.root
  . intro q hq
    rw [hid]
    exact h.fresh q (hold q hq).1
  . rw [hid]
    exact h.pos
  . rw [hlen, h.len]
    simp
    omega

theorem Holds.move_spec (h : l.Holds (ps ++ p :: qs)) (heq : ps ++ qs = rs ++ ts)
    : ∃ l', l.move p.1 (lastId rs) = some l' ∧ l'.Holds (rs ++ p :: ts) ∧ l'.cell = l.cell ∧
        l'.nextId = l.nextId := by
  obtain ⟨hbefore, hafter⟩ := h.neighbours
  have hsplit : ps ++ p :: qs = (ps ++ [p]) ++ qs := append_cons ..
  have hring := h.ring
  rw [map_append, map_cons] at hring
  have hp := h.not_mem
  have hroot : p.1 ≠ rootId := h.ne_root (by simp)
  -- The ring without the node.
  have hrest : LinkedList.IsRing (update l.next (l.prev p.1) (l.next p.1)) (update l.prev (l.next p.1) (l.prev p.1))
      rootId (rs.map Prod.fst ++ ts.map Prod.fst) := by
    rw [← map_append, ← heq, map_append]
    apply hring.unlink
    all_goals
      intro y _
      rw [update_apply]
  have hsome (x : Nat) (hx : x = rootId ∨ x ∈ rs.map Prod.fst ++ ts.map Prod.fst) : (l.nodes x).isSome ∧ x ≠ p.1 := by
    rw [← map_append, ← heq] at hx
    rcases hx with rfl | hx
    . exact ⟨h.mem_root, hroot.symm⟩
    . refine ⟨(h.some_iff x).mpr (.inr ?_), fun heq => hp (heq ▸ hx)⟩
      grind
  obtain ⟨m, c, hm, hc, hnextm, _⟩ := hrest.links_at
  obtain rfl : lastId rs = m := hm
  obtain rfl : headId ts = c := hc
  obtain ⟨hmsome, hmne⟩ := hsome _ ((lastId_mem rs).imp_right (mem_append_left _))
  obtain ⟨hcsome, hcne⟩ := hsome _ ((headId_mem ts).imp_right (mem_append_right _))
  obtain ⟨l', hmove, hnext, hprev, hcell, hiff, hid, hlen⟩ := move_links hmne.symm (h.id_some (by simp))
    (hbefore ▸ h.lastId_some) (hafter ▸ (hsplit ▸ h).headId_some) hmsome (hnextm ▸ hcsome)
  have hperm : (rs ++ p :: ts).Perm (ps ++ p :: qs) :=
    perm_middle.trans (heq ▸ perm_middle.symm)
  refine ⟨l', hmove, ⟨?_, ?_, ?_, ?_, ?_, ?_, ?_⟩, hcell, hid⟩
  . rw [heq, map_append] at hp
    rw [map_append, map_cons, hnext, hprev]
    exact hrest.insert rfl hp hroot hmne.symm (hnextm ▸ hcne.symm)
  . intro j
    rw [hiff, h.some_iff, (hperm.map Prod.fst).mem_iff]
  . intro q hq
    rw [hcell]
    exact h.cells q (hperm.mem_iff.mp hq)
  . rw [hcell]
    exact h.root
  . intro q hq
    rw [hid]
    exact h.fresh q (hperm.mem_iff.mp hq)
  . rw [hid]
    exact h.pos
  . rw [hlen, h.len, hperm.length_eq]

theorem snapshot_eq {link : Node → Nat} (hlink : ∀ xs p ys, rs = xs ++ p :: ys → p.1 ≠ rootId ∧
      ∃ n, l.nodes p.1 = some n ∧ n.value = some p.2 ∧ link n = headId ys)
    (hrs : rs = ps ++ qs) (hfuel : qs.length < fuel)
    : l.snapshot link fuel (headId qs) = some (qs.map Prod.snd) := by
  induction fuel generalizing ps qs with
  | zero => omega
  | succ fuel ih =>
    cases qs with
    | nil => rfl
    | cons p qs =>
      obtain ⟨hne, n, hn, hvalue, hnext⟩ := hlink ps p qs hrs
      rw [append_cons] at hrs
      have hrec := ih hrs (Nat.lt_of_succ_lt_succ hfuel)
      change snapshot l link (fuel + 1) p.1 = _
      rw [snapshot, if_neg hne, hn]
      dsimp
      rw [hnext, hrec, hvalue]
      rfl

theorem Holds.mem_of_cell (h : l.Holds ps) (hc : l.cell i = some c) : (i, c) ∈ ps := by
  have hsome : (l.nodes i).isSome := by
    cases hn : l.nodes i with
    | none => simp [cell, hn] at hc
    | some => rfl
  rcases (h.some_iff i).mp hsome with heq | hmem
  . rw [heq, h.root] at hc
    contradiction
  obtain ⟨p, hp, heq⟩ := mem_map.mp hmem
  have hcell := h.cells p hp
  rw [heq, hc] at hcell
  cases hcell
  exact heq ▸ hp

section

variable (h : l.Holds (ps ++ qs))
include h

theorem Holds.headId_eq_root : headId qs = rootId ↔ qs = [] := by
  cases qs with
  | nil => exact ⟨fun _ => rfl, fun _ => rfl⟩
  | cons p qs => exact ⟨fun heq => absurd heq (h.ne_root (p := p) (by simp)), nofun⟩

theorem Holds.lastId_eq_root : lastId ps = rootId ↔ ps = [] := by
  rcases eq_nil_or_concat ps with hnil | hconcat
  . simp [hnil, lastId]
  obtain ⟨ps', p, rfl⟩ := hconcat
  rw [concat_eq_append, lastId_concat]
  exact ⟨fun heq => absurd heq (h.ne_root (by simp)), by simp⟩

theorem Holds.snapshot_next (hfuel : qs.length < fuel)
    : l.snapshot Node.next fuel (headId qs) = some (qs.map Prod.snd) := by
  apply snapshot_eq (fun xs p ys hqs => ?_) (nil_append qs).symm hfuel
  rw [hqs, ← append_assoc] at h
  have hmem : p ∈ ps ++ xs ++ p :: ys := by simp
  exact ⟨h.ne_root hmem, _, nodes_eq (h.id_some hmem), h.cells p hmem, h.neighbours.2⟩

theorem Holds.snapshot_prev (hfuel : ps.length < fuel)
    : l.snapshot Node.prev fuel (lastId ps) = some (ps.reverse.map Prod.snd) := by
  rw [lastId_eq]
  apply snapshot_eq (fun xs p ys hps => ?_) (nil_append _).symm (by rwa [length_reverse])
  rw [reverse_eq_iff, reverse_append, reverse_cons, append_assoc, singleton_append] at hps
  rw [hps, append_assoc, cons_append] at h
  have hmem : p ∈ ys.reverse ++ p :: (xs.reverse ++ qs) := by simp
  refine ⟨h.ne_root hmem, _, nodes_eq (h.id_some hmem), h.cells p hmem, ?_⟩
  rw [← reverse_reverse ys, ← lastId_eq]
  exact h.neighbours.1

end

end ListInner

end Container
