import Goish.Data.System
import Goish.Sync.Lemmas.NotifyList
import Goish.Sync.Lemmas.Sema

/-! All semaphores and notify lists thread their waiters through the one `sema_next` of a goroutine. -/

open List Function Queue

namespace Sync

open NotifyList

inductive Chain (I : Type v) (J : Type w) (G : Type u) where
  | sema (i : I)
  | list (j : J)
  | taken (g : G)
  deriving DecidableEq

-- `taken g` is the chain that the `NotifyAll` of `g` goes along, and `queue` has the goroutines of a chain.
structure Waiters (I : Type v) (J : Type w) (G : Type u) where
  next : G → Option G
  credit : I → Int
  chain : Chain I J G → Option G × Option G
  queue : Chain I J G → List G

namespace Waiters

variable {I : Type v} {J : Type w} {G : Type u} (s : Waiters I J G)

def sema (i : I) : SemaState G :=
  ⟨s.credit i, (s.chain (.sema i)).1, (s.chain (.sema i)).2⟩

def semaSpec (i : I) : Sema G :=
  ⟨(s.credit i).toNat, s.queue (.sema i)⟩

def list (j : J) : ListState G :=
  ⟨(s.chain (.list j)).1, (s.chain (.list j)).2⟩

def Running (g : G) : Prop :=
  ∀ c, g ∉ s.queue c

structure Inv : Prop where
  chains : Chains s.next s.chain s.queue
  credit : ∀ i, 0 ≤ s.credit i

variable {s} {next : G → Option G} {l : List G}

theorem Inv.sema (h : s.Inv) (i : I) : (s.sema i).Refines s.next (s.semaSpec i) :=
  ⟨(Int.toNat_of_nonneg (h.credit i)).symm, h.chains.queue (.sema i)⟩

theorem Inv.list (h : s.Inv) (j : J) : (s.list j).Refines s.next (s.queue (.list j)) :=
  h.chains.queue (.list j)

theorem Running.mem_push (hg : s.Running g) (hx : x ∈ s.queue c ++ [g]) : x ∈ s.queue c ∨ s.Running x := by
  rcases mem_append.mp hx with hx | hx
  . exact .inl hx
  . exact .inr (mem_singleton.mp hx ▸ hg)

variable (s) [DecidableEq I] [DecidableEq J] [DecidableEq G]

def set (c : Chain I J G) (next : G → Option G) (p : Option G × Option G) (l : List G) : Waiters I J G :=
  { s with next := next, chain := update s.chain c p, queue := update s.queue c l }

def acquire (i : I) (g : G) : Waiters I J G :=
  let (_, t, next) := (s.sema i).acquire s.next g
  { s.set (.sema i) next (t.head, t.tail) ((s.semaSpec i).acquire g).2.queue with credit := update s.credit i t.credit }

def release (i : I) (left : Nat) : Waiters I J G :=
  let (_, t) := (s.sema i).releaseNext s.next left
  { s.set (.sema i) s.next (t.head, t.tail) ((s.semaSpec i).releaseNext left).2.queue with
    credit := update s.credit i t.credit }

def wait (j : J) (g : G) : Waiters I J G :=
  let (t, next) := (s.list j).enqueue s.next g
  s.set (.list j) next (t.head, t.tail) (s.queue (.list j) ++ [g])

def notifyOne (j : J) (ticket : G → Nat) (t fuel : Nat) : Waiters I J G :=
  let (_, u, next) := (s.list j).remove s.next ticket t fuel
  s.set (.list j) next (u.head, u.tail) ((s.queue (.list j)).eraseP fun x => ticket x = t)

def notifyAll (j : J) (g : G) : Waiters I J G :=
  (s.set (.list j) s.next (none, none) []).set (.taken g) s.next (s.chain (.list j)) (s.queue (.list j))

def wake (g : G) : Waiters I J G :=
  match s.chain (.taken g) with
  | (none, _) => s
  | (some x, tail) =>
    s.set (.taken g) (update s.next x none) (s.next x, if (s.next x).isNone then none else tail) (s.queue (.taken g)).tail

variable {s} (h : s.Inv)

omit [DecidableEq I] [DecidableEq J] in
theorem push_frame (hlast : l.getLast? = some y) (hx : x ∉ l) (hne : x ≠ g)
    : update (update next g none) y (some g) x = next x := by
  have hxy : x ≠ y := by
    rintro rfl
    exact hx (mem_of_getLast? hlast)
  rw [update_of_ne hxy, update_of_ne hne]

include h

theorem Inv.setSema {t : SemaState G} {a : Sema G} (ht : t.Refines next a)
    (hnew : ∀ x ∈ a.queue, x ∈ s.queue (.sema i) ∨ s.Running x)
    (hsame : ∀ x, x ∉ s.queue (.sema i) → x ∉ a.queue → next x = s.next x)
    : Inv { s.set (.sema i) next (t.head, t.tail) a.queue with credit := update s.credit i t.credit } := by
  refine ⟨h.chains.set ht.queue hnew hsame, fun j => ?_⟩
  dsimp only
  by_cases hj : j = i
  . rw [hj, update_self, ht.credit]
    omega
  . rw [update_of_ne hj]
    exact h.credit j

theorem Inv.acquire (hg : s.Running g) (i : I) : Inv (s.acquire i g) := by
  have hcredit := (h.sema i).credit
  apply h.setSema ((h.sema i).acquire (hg _)).2
  . intro x hx
    unfold Sema.acquire at hx
    split at hx
    . exact .inl hx
    . exact hg.mem_push hx
  . intro x hx hx'
    unfold SemaState.acquire
    split
    . rfl
    rw [Sema.acquire_zero (by omega)] at hx'
    have hne : x ≠ g := fun heq => hx' (mem_append_right _ (mem_singleton.mpr heq))
    split
    . exact update_of_ne hne _ _
    . next htail => exact push_frame ((h.chains.queue (.sema i)).tail_eq.symm.trans htail) hx hne

theorem Inv.release (i : I) (left : Nat) : Inv (s.release i left) := by
  apply h.setSema ((h.sema i).releaseNext left).2
  . intro x hx
    left
    change x ∈ (s.semaSpec i).queue
    unfold Sema.releaseNext at hx
    split at hx
    . next hq =>
      rw [hq]
      exact mem_cons_of_mem _ hx
    . exact hx
  . exact fun _ _ _ => rfl

theorem Inv.wait (hg : s.Running g) (j : J) : Inv (s.wait j g) := by
  have hq := h.chains.queue (.list j)
  refine ⟨h.chains.set (ListState.Refines.enqueue hq (hg _)) (fun x => hg.mem_push) ?_, h.credit⟩
  intro x hx hx'
  have hne : x ≠ g := fun heq => hx' (mem_append_right _ (mem_singleton.mpr heq))
  change ((s.list j).enqueue s.next g).2 x = s.next x
  unfold ListState.enqueue
  split
  . exact update_of_ne hne _ _
  . next htail => exact push_frame (hq.tail_eq.symm.trans htail) hx hne

theorem Inv.notifyOne (hfuel : (s.queue (.list j)).length ≤ fuel) : Inv (s.notifyOne j ticket t fuel) := by
  refine ⟨h.chains.set ((h.list j).remove hfuel).2 ?_ ?_, h.credit⟩
  . exact fun x hx => .inl (mem_of_mem_eraseP hx)
  . exact fun x hx _ => ListState.remove_go_frame (h.list j).links hx nofun

theorem Inv.notifyAll (j : J) (g : G) : Inv (s.notifyAll j g) := by
  have hclear := h.chains.set (c := .list j) (p := (none, none)) (.empty _) nofun fun _ _ _ => rfl
  refine ⟨hclear.set (h.list j) (fun x hx => .inr fun c hc => ?_) fun _ _ _ => rfl, h.credit⟩
  by_cases heq : c = .list j
  . simp [heq] at hc
  . rw [update_of_ne heq] at hc
    exact h.chains.apart _ c (Ne.symm heq) hx hc

-- The rest of the chain is parked, so that nobody else writes its links.
theorem Inv.wake (g : G) : Inv (s.wake g) := by
  have hq := h.chains.queue (.taken g)
  unfold Waiters.wake
  split
  . exact h
  next x tail heq =>
  rw [heq] at hq
  obtain ⟨rest, hl, hrest⟩ := hq.pop
  have hx := hl ▸ hq.nodup
  rw [nodup_cons] at hx
  refine ⟨h.chains.set ?_ (fun y hy => .inl (mem_of_mem_tail hy)) ?_, h.credit⟩
  . rw [hl]
    refine hrest.congr fun y hy => update_of_ne ?_ _ _
    rintro rfl
    exact hx.1 hy
  . intro y hy _
    apply update_of_ne
    rintro rfl
    exact hy (hl ▸ mem_cons_self)

end Waiters

def waiterSystem (I : Type v) (J : Type w) (G : Type u) [DecidableEq I] [DecidableEq J] [DecidableEq G]
    : System (Waiters I J G) where
  init s := (∀ i, s.credit i = 0) ∧ ∀ c, s.chain c = (none, none) ∧ s.queue c = []
  step s t := (∃ i g, s.Running g ∧ t = s.acquire i g) ∨ (∃ i left, t = s.release i left) ∨
    (∃ j g, s.Running g ∧ t = s.wait j g) ∨ (∃ j g, s.queue (.taken g) = [] ∧ t = s.notifyAll j g) ∨
    (∃ j ticket n fuel, (s.queue (.list j)).length ≤ fuel ∧ t = s.notifyOne j ticket n fuel) ∨ ∃ g, t = s.wake g

variable {I : Type v} {J : Type w} {G : Type u} [DecidableEq I] [DecidableEq J] [DecidableEq G] {s : Waiters I J G}

theorem Waiters.reachable_inv (h : (waiterSystem I J G).Reachable s) : s.Inv := by
  apply h.invariant
  . rintro s ⟨hcredit, hempty⟩
    refine ⟨⟨fun c => ?_, fun c _ _ => ?_⟩, fun i => (hcredit i).ge⟩
    . rw [(hempty c).1, (hempty c).2]
      exact .empty _
    . rw [(hempty c).2]
      exact nofun
  . rintro s t hinv (⟨i, g, hg, rfl⟩ | ⟨i, left, rfl⟩ | ⟨j, g, hg, rfl⟩ | ⟨j, g, _, rfl⟩ | ⟨j, _, _, _, hfuel, rfl⟩ | ⟨g, rfl⟩)
    . exact hinv.acquire hg i
    . exact hinv.release i left
    . exact hinv.wait hg j
    . exact hinv.notifyAll j g
    . exact hinv.notifyOne hfuel
    . exact hinv.wake g

theorem waiters_refine (h : (waiterSystem I J G).Reachable s)
    : (∀ c c', c ≠ c' → (s.queue c).Disjoint (s.queue c')) ∧
        (∀ i, (s.sema i).Refines s.next (s.semaSpec i) ∧
          (∀ g, s.Running g → ((s.sema i).acquire s.next g).1 = ((s.semaSpec i).acquire g).1) ∧
          ∀ left, ((s.sema i).releaseNext s.next left).1 = ((s.semaSpec i).releaseNext left).1) ∧
        (∀ j, (s.list j).Refines s.next (s.queue (.list j)) ∧
          ∀ ticket t fuel, (s.queue (.list j)).length ≤ fuel →
            ((s.list j).remove s.next ticket t fuel).1 = (s.queue (.list j)).find? fun x => ticket x = t) ∧
        ∀ g fuel, (s.queue (.taken g)).length ≤ fuel →
          (ListState.wakeAll s.next fuel (s.chain (.taken g)).1).1 = s.queue (.taken g) := by
  have hinv := Waiters.reachable_inv h
  refine ⟨hinv.chains.apart, fun i => ⟨hinv.sema i, fun g hg => ?_, fun left => ?_⟩, fun j => ⟨hinv.list j, ?_⟩, ?_⟩
  . exact ((hinv.sema i).acquire (hg _)).1
  . exact ((hinv.sema i).releaseNext left).1
  . exact fun ticket t fuel hfuel => ((hinv.list j).remove hfuel).1
  . intro g fuel hfuel
    have hq := hinv.chains.queue (.taken g)
    exact ListState.wakeAll_eq hq.links hq.nodup hfuel

theorem waiters_refine_taken : ∃ s : Waiters Unit Unit (Fin 3), (waiterSystem Unit Unit (Fin 3)).Reachable s ∧
        s.queue (.taken 2) = [1] ∧ ((s.sema ()).releaseNext s.next 1).1 = some 0 := by
  have h0 : (waiterSystem Unit Unit (Fin 3)).Reachable ⟨fun _ => none, fun _ => 0, fun _ => (none, none), fun _ => []⟩ :=
    .init ⟨fun _ => rfl, fun _ => ⟨rfl, rfl⟩⟩
  have h1 := h0.step (.inl ⟨(), 0, nofun, rfl⟩)
  have h2 := h1.step (.inr (.inr (.inl ⟨(), 1, by rintro (_ | _ | _) <;> decide +revert, rfl⟩)))
  have h3 := h2.step (.inr (.inr (.inr (.inl ⟨(), 2, rfl, rfl⟩))))
  exact ⟨_, h3, rfl, ((waiters_refine h3).2.1 ()).2.2 1⟩

end Sync
