import Goish.Data.LinkedList
import Goish.Runtime.MCentral.Impl.MCentral
import Goish.Runtime.MCentral.Lemmas.Span

open List LinkedList

namespace Central

def Span.unlinked (s : Span) : Span :=
  { s with
    next := nilSpan
    prev := nilSpan }

namespace MCentral

variable {m m' : MCentral}

def next (m : MCentral) (i : Nat) : Nat :=
  (m.spans i).next

def prev (m : MCentral) (i : Nat) : Nat :=
  (m.spans i).prev

def head (m : MCentral) (b : Bool) (c : Nat) : Nat :=
  if b then m.partialHead c else m.fullHead c

def setHead (m : MCentral) (b : Bool) (c idx : Nat) : MCentral :=
  if b then m.setPartialHead c idx else m.setFullHead c idx

theorem spans_setSpan (j : Nat) : (m.setSpan i s).spans j = if j = i then s else m.spans j := rfl

theorem setSpan_kept (f : Span → α) (hs : f s = f (m.spans i)) (j : Nat)
    : f ((m.setSpan i s).spans j) = f (m.spans j) := by
  rw [spans_setSpan]
  split
  . next heq => rw [heq, hs]
  . rfl

@[simp]
theorem next_setNext (j : Nat) : (m.setNext i n).next j = if j = i then n else m.next j := by
  unfold next setNext
  rw [spans_setSpan]
  split <;> rfl

@[simp]
theorem prev_setNext (j : Nat) : (m.setNext i n).prev j = m.prev j := setSpan_kept Span.prev (by rfl) j

@[simp]
theorem next_setPrev (j : Nat) : (m.setPrev i n).next j = m.next j := setSpan_kept Span.next (by rfl) j

@[simp]
theorem prev_setPrev (j : Nat) : (m.setPrev i n).prev j = if j = i then n else m.prev j := by
  unfold prev setPrev
  rw [spans_setSpan]
  split <;> rfl

@[simp]
theorem head_setNext (b : Bool) (c : Nat) : (m.setNext i n).head b c = m.head b c := rfl

@[simp]
theorem head_setPrev (b : Bool) (c : Nat) : (m.setPrev i n).head b c = m.head b c := rfl

@[simp]
theorem next_setHead (j : Nat) : (m.setHead b c i).next j = m.next j := by
  cases b <;> rfl

@[simp]
theorem prev_setHead (j : Nat) : (m.setHead b c i).prev j = m.prev j := by
  cases b <;> rfl

@[simp]
theorem head_setHead (b' : Bool) (c' : Nat)
    : (m.setHead b c i).head b' c' = if b' = b ∧ c' = c then i else m.head b' c' := by
  cases b <;> cases b' <;> simp [setHead, setPartialHead, setFullHead, head]

structure SameSpans (m m' : MCentral) : Prop where
  spans : ∀ i, (m'.spans i).unlinked = (m.spans i).unlinked
  spansBump : m'.spansBump = m.spansBump
  spansFreeHead : m'.spansFreeHead = m.spansFreeHead
  pageToSpan : m'.pageToSpan = m.pageToSpan
  trackedPages : m'.trackedPages = m.trackedPages
  arenaBase : m'.arenaBase = m.arenaBase

namespace SameSpans

theorem refl (m : MCentral) : SameSpans m m :=
  ⟨fun _ => rfl, rfl, rfl, rfl, rfl, rfl⟩

theorem trans (h : SameSpans m m') (h' : SameSpans m' m'') : SameSpans m m'' where
  spans i := (h'.spans i).trans (h.spans i)
  spansBump := h'.spansBump.trans h.spansBump
  spansFreeHead := h'.spansFreeHead.trans h.spansFreeHead
  pageToSpan := h'.pageToSpan.trans h.pageToSpan
  trackedPages := h'.trackedPages.trans h.trackedPages
  arenaBase := h'.arenaBase.trans h.arenaBase

theorem setNext (m : MCentral) (i n : Nat) : SameSpans m (m.setNext i n) :=
  ⟨setSpan_kept Span.unlinked (by rfl), rfl, rfl, rfl, rfl, rfl⟩

theorem setPrev (m : MCentral) (i n : Nat) : SameSpans m (m.setPrev i n) :=
  ⟨setSpan_kept Span.unlinked (by rfl), rfl, rfl, rfl, rfl, rfl⟩

theorem setHead (m : MCentral) (b : Bool) (c i : Nat) : SameSpans m (m.setHead b c i) := by
  cases b <;> exact ⟨fun _ => rfl, rfl, rfl, rfl, rfl, rfl⟩

theorem sizeclass (h : SameSpans m m') (i : Nat) : (m'.spans i).sizeclass = (m.spans i).sizeclass := by
  have := congrArg Span.sizeclass (h.spans i)
  exact this

end SameSpans

def push (m : MCentral) (b : Bool) (idx : Nat) : MCentral :=
  let cls := (m.spans idx).sizeclass
  let head := m.head b cls
  let m := (m.setNext idx head).setPrev idx nilSpan
  let m := if head ≠ nilSpan then m.setPrev head idx else m
  m.setHead b cls idx

theorem partialPush_eq (m : MCentral) (idx : Nat) : m.partialPush idx = m.push true idx := rfl

theorem push_same (m : MCentral) (b : Bool) (i : Nat) : SameSpans m (m.push b i) := by
  apply SameSpans.trans _ (SameSpans.setHead _ _ _ _)
  split
  . exact ((SameSpans.setNext _ _ _).trans (SameSpans.setPrev _ _ _)).trans (SameSpans.setPrev _ _ _)
  . exact (SameSpans.setNext _ _ _).trans (SameSpans.setPrev _ _ _)

theorem next_push (j : Nat) : (m.push b i).next j = if j = i then m.head b (m.spans i).sizeclass else m.next j := by
  unfold push
  dsimp only
  split <;> simp

theorem prev_push (j : Nat) : (m.push b i).prev j =
        if j = m.head b (m.spans i).sizeclass ∧ j ≠ nilSpan then i
        else if j = i then nilSpan else m.prev j := by
  unfold push
  dsimp only
  split <;> simp only [prev_setHead, prev_setPrev, prev_setNext] <;> grind

theorem head_push (b' : Bool) (c' : Nat) : (m.push b i).head b' c' =
        if b' = b ∧ c' = (m.spans i).sizeclass then i else m.head b' c' := by
  unfold push
  rw [head_setHead]
  split
  . rfl
  . split <;> simp

theorem listRemove_same (m : MCentral) (i : Nat) : SameSpans m (m.listRemove i) := by
  apply SameSpans.trans _ (SameSpans.setPrev _ _ _)
  apply SameSpans.trans _ (SameSpans.setNext _ _ _)
  have hfirst : SameSpans m
      (if (m.spans i).prev ≠ nilSpan then m.setNext (m.spans i).prev (m.spans i).next
      else if m.partialHead (m.spans i).sizeclass = i then
        m.setPartialHead (m.spans i).sizeclass (m.spans i).next
      else if m.fullHead (m.spans i).sizeclass = i then
        m.setFullHead (m.spans i).sizeclass (m.spans i).next
      else m) := by
    split
    . apply SameSpans.setNext
    split
    . exact SameSpans.setHead m true _ _
    . split
      . exact SameSpans.setHead m false _ _
      . apply SameSpans.refl
  split
  . exact hfirst.trans (SameSpans.setPrev _ _ _)
  . exact hfirst

theorem next_listRemove (j : Nat) : (m.listRemove i).next j =
        if j = i then nilSpan
        else if j = m.prev i ∧ j ≠ nilSpan then m.next i else m.next j := by
  have hp : ∀ c n, (m.setPartialHead c n).next j = m.next j := fun _ _ => rfl
  have hf : ∀ c n, (m.setFullHead c n).next j = m.next j := fun _ _ => rfl
  unfold listRemove
  simp only [next_setPrev, next_setNext]
  split
  . rfl
  . split <;> split <;> grind [next_setPrev, next_setNext, prev, next]

theorem prev_listRemove (j : Nat) : (m.listRemove i).prev j =
        if j = i then nilSpan
        else if j = m.next i ∧ j ≠ nilSpan then m.prev i else m.prev j := by
  have hp : ∀ c n, (m.setPartialHead c n).prev j = m.prev j := fun _ _ => rfl
  have hf : ∀ c n, (m.setFullHead c n).prev j = m.prev j := fun _ _ => rfl
  unfold listRemove
  simp only [prev_setPrev, prev_setNext]
  split
  . rfl
  . split <;> split <;> grind [prev_setPrev, prev_setNext, prev, next]

theorem head_listRemove (b : Bool) (c : Nat) : (m.listRemove i).head b c =
        if m.prev i = nilSpan ∧ c = (m.spans i).sizeclass ∧
            m.head b c = i ∧ (b = false → m.head true c ≠ i) then m.next i
        else m.head b c := by
  have hp : ∀ c' n, (m.setPartialHead c' n).head b c = if b = true ∧ c = c' then n else m.head b c :=
    fun _ _ => head_setHead (b := true) b c
  have hf : ∀ c' n, (m.setFullHead c' n).head b c = if b = false ∧ c = c' then n else m.head b c :=
    fun _ _ => head_setHead (b := false) b c
  unfold listRemove
  simp only [head_setPrev, head_setNext]
  split <;> split <;> grind [head_setPrev, head_setNext, prev, next, head]

structure Lists (m : MCentral) (L : Bool → Nat → List Nat) : Prop where
  isList : ∀ b c, ∃ (tail : Nat), IsList m.next m.prev nilSpan (m.head b c) tail (L b c)
  cls : ∀ b c i, i ∈ L b c → (m.spans i).sizeclass = c
  disjoint : ∀ c i, i ∈ L true c → i ∉ L false c

namespace Lists

variable {L : Bool → Nat → List Nat}

def set (L : Bool → Nat → List Nat) (b : Bool) (c : Nat) (l : List Nat) : Bool → Nat → List Nat :=
  fun b' c' => if b' = b ∧ c' = c then l else L b' c'

theorem exists_mem_set : (∃ b' c', j ∈ set L b c l b' c') ↔ j ∈ l ∨ ∃ b' c', ¬(b' = b ∧ c' = c) ∧ j ∈ L b' c' := by
  unfold set
  constructor
  . rintro ⟨b', c', hj⟩
    split at hj
    . exact .inl hj
    . next hne => exact .inr ⟨b', c', hne, hj⟩
  . rintro (hj | ⟨b', c', hne, hj⟩)
    . exact ⟨b, c, by rwa [if_pos ⟨rfl, rfl⟩]⟩
    . exact ⟨b', c', by rwa [if_neg hne]⟩

variable (h : Lists m L)
include h

theorem ne_nil (hi : i ∈ L b c) : i ≠ nilSpan := by
  obtain ⟨_, hlist⟩ := h.isList b c
  rintro rfl
  exact hlist.nil_not_mem hi

theorem unique (hi : i ∈ L b c) (hi' : i ∈ L b' c') : b' = b ∧ c' = c := by
  have hc := h.cls b c i hi
  have hc' := h.cls b' c' i hi'
  have heq : c' = c := hc'.symm.trans hc
  subst heq
  refine ⟨?_, rfl⟩
  cases b <;> cases b'
  . rfl
  . exact absurd hi (h.disjoint _ i hi')
  . exact absurd hi' (h.disjoint _ i hi)
  . rfl

theorem head_mem (hne : m.head b c ≠ nilSpan) : m.head b c ∈ L b c := by
  obtain ⟨_, hlist⟩ := h.isList b c
  exact hlist.head_mem hne

theorem next_mem (hi : i ∈ L b c) (hne : m.next i ≠ nilSpan) : m.next i ∈ L b c := by
  obtain ⟨_, hlist⟩ := h.isList b c
  exact hlist.next_mem hi hne

theorem prev_mem (hi : i ∈ L b c) (hne : m.prev i ≠ nilSpan) : m.prev i ∈ L b c := by
  obtain ⟨_, hlist⟩ := h.isList b c
  exact hlist.prev_mem hi hne

theorem congr (hhead : ∀ b c, m'.head b c = m.head b c) (hnext : ∀ b c, ∀ i ∈ L b c, m'.next i = m.next i)
    (hprev : ∀ b c, ∀ i ∈ L b c, m'.prev i = m.prev i)
    (hcls : ∀ b c, ∀ i ∈ L b c, (m'.spans i).sizeclass = (m.spans i).sizeclass) : Lists m' L where
  isList := by
    intro b c
    obtain ⟨tail, hlist⟩ := h.isList b c
    rw [hhead]
    exact ⟨tail, hlist.congr (hnext b c) (hprev b c)⟩
  cls := by
    intro b c i hi
    rw [hcls b c i hi]
    exact h.cls b c i hi
  disjoint := h.disjoint

theorem push (hi : ∀ b c, i ∉ L b c) (hne : i ≠ nilSpan) (b : Bool)
    : Lists (m.push b i) (set L b (m.spans i).sizeclass (i :: L b (m.spans i).sizeclass)) where
  isList := by
    intro b' c'
    unfold set
    rw [head_push]
    obtain ⟨tail, hlist⟩ := h.isList b' c'
    split
    . next heq =>
      obtain ⟨hb, hc⟩ := heq
      subst hb hc
      apply hlist.pushFront (hi b' _) hne
      . rw [next_push, if_pos rfl]
      . rw [prev_push, if_neg, if_pos rfl]
        intro ⟨hhead, _⟩
        have := h.head_mem (b := b') (c := (m.spans i).sizeclass) (by rw [← hhead]; exact hne)
        rw [← hhead] at this
        exact hi _ _ this
      . intro j hj
        rw [next_push, if_neg]
        exact fun heq => hi _ _ (heq ▸ hj)
      . intro j hj hhead
        rw [prev_push, if_neg (fun hj => hhead hj.1), if_neg]
        exact fun heq => hi _ _ (heq ▸ hj)
      . intro hhead
        rw [prev_push, if_pos ⟨rfl, hhead⟩]
    . next hother =>
      refine ⟨tail, hlist.congr ?_ ?_⟩
      . intro j hj
        rw [next_push, if_neg]
        exact fun heq => hi _ _ (heq ▸ hj)
      intro j hj
      rw [prev_push, if_neg, if_neg]
      . exact fun heq => hi _ _ (heq ▸ hj)
      intro hhead
      apply hother
      have := h.head_mem (hhead.1 ▸ hhead.2)
      rw [← hhead.1] at this
      exact h.unique this hj
  cls := by
    intro b' c' j hj
    rw [(push_same m b i).sizeclass]
    unfold set at hj
    split at hj
    . next heq =>
      rcases mem_cons.mp hj with hj | hj
      . rw [hj, heq.2]
      . rw [heq.2]
        exact h.cls _ _ j hj
    . exact h.cls b' c' j hj
  disjoint := by
    intro c' j hj hj'
    unfold set at hj hj'
    have hother := h.disjoint c' j
    grind

theorem remove (hi : i ∈ L b c) : Lists (m.listRemove i) (set L b c ((L b c).erase i)) where
  isList := by
    intro b' c'
    have hclass := h.cls b c i hi
    have hnil := h.ne_nil hi
    unfold set
    rw [head_listRemove]
    obtain ⟨tail, hlist⟩ := h.isList b' c'
    by_cases hother : b' = b ∧ c' = c
    . rw [if_pos hother]
      obtain ⟨hb, hc⟩ := hother
      subst hb hc
      have hnext : ∀ j ∈ L b' c', j ≠ i →
          (m.listRemove i).next j = if j = m.prev i then m.next i else m.next j := by
        intro j hj hne
        have := h.ne_nil hj
        rw [next_listRemove, if_neg hne]
        simp [this]
      have hprev : ∀ j ∈ L b' c', j ≠ i →
          (m.listRemove i).prev j = if j = m.next i then m.prev i else m.prev j := by
        intro j hj hne
        have := h.ne_nil hj
        rw [prev_listRemove, if_neg hne]
        simp [this]
      have hunlink := hlist.unlink hi hnext hprev
      have hhead := hlist.prev_eq_nil_iff hi
      have hsep : b' = false → m.head true c' ≠ i := by
        intro hb hother
        have hmem := h.head_mem (b := true) (c := c') (by rw [hother]; exact hnil)
        rw [hother] at hmem
        subst hb
        exact h.disjoint c' i hmem hi
      have hiff : (m.prev i = nilSpan ∧ c' = (m.spans i).sizeclass ∧ m.head b' c' = i ∧
          (b' = false → m.head true c' ≠ i)) ↔ m.prev i = nilSpan := by
        constructor
        . exact fun hand => hand.1
        . exact fun hprev => ⟨hprev, hclass.symm, hhead.mp hprev, hsep⟩
      simp only [hiff]
      exact ⟨_, hunlink⟩
    . rw [if_neg hother]
      have hmem : ∀ j ∈ L b' c', j ∉ L b c := by
        intro j hj hj'
        exact hother (h.unique hj' hj)
      rw [if_neg]
      . refine ⟨tail, hlist.congr ?_ ?_⟩
        . intro j hj
          rw [next_listRemove, if_neg (fun (heq : j = i) => hmem j hj (heq ▸ hi)), if_neg]
          intro hp
          exact hmem j hj (hp.1 ▸ h.prev_mem hi (hp.1 ▸ hp.2))
        . intro j hj
          rw [prev_listRemove, if_neg (fun (heq : j = i) => hmem j hj (heq ▸ hi)), if_neg]
          intro hn
          exact hmem j hj (hn.1 ▸ h.next_mem hi (hn.1 ▸ hn.2))
      . intro hand
        have := h.head_mem (b := b') (c := c') (by rw [hand.2.2.1]; exact hnil)
        rw [hand.2.2.1] at this
        exact hother (h.unique hi this)
  cls := by
    intro b' c' j hj
    rw [(listRemove_same m i).sizeclass]
    unfold set at hj
    split at hj
    . next heq =>
      rw [heq.2]
      exact h.cls b c j (mem_of_mem_erase hj)
    . exact h.cls b' c' j hj
  disjoint := by
    intro c' j hj hj'
    unfold set at hj hj'
    have hother := h.disjoint c' j
    grind [mem_of_mem_erase]

end Lists

def Used (m : MCentral) (i : Nat) : Prop :=
  (m.spans i).sizeclass ≠ 0

structure Linked (m : MCentral) (listed : Nat → Prop) : Prop where
  lists : ∃ (L : Bool → Nat → List Nat), Lists m L ∧ ∀ i, listed i ↔ ∃ b c, i ∈ L b c
  free : ∃ (F : List Nat), Chain m.next m.spansFreeHead F nilSpan ∧ F.Nodup ∧
    ∀ i ∈ F, i ≠ nilSpan ∧ i ≤ m.spansBump ∧ ¬ m.Used i
  used : ∀ i, m.Used i → i ≠ nilSpan ∧ i ≤ m.spansBump
  unused : ∀ i, ¬ m.Used i → (m.spans i).unlinked = Span.new
  listed_used : ∀ i, listed i → m.Used i

namespace Linked

variable {listed listed' : Nat → Prop}

theorem init (base pages : Nat) : Linked (MCentral.init base pages) (fun _ => False) where
  lists := by
    refine ⟨fun _ _ => [], ⟨?_, by simp, by simp⟩, by simp⟩
    intro b c
    refine ⟨nilSpan, ?_⟩
    have hhead : (MCentral.init base pages).head b c = nilSpan := by
      cases b <;> rfl
    rw [hhead]
    apply IsList.empty
  free := ⟨[], rfl, nodup_nil, by simp⟩
  used := fun _ hu => absurd rfl hu
  unused := fun _ _ => rfl
  listed_used := fun _ => False.elim

variable (h : Linked m listed)
include h

theorem not_cached (hi : ¬ m.Used i) : (m.spans i).cached = false :=
  congrArg Span.cached (h.unused i hi)

theorem iff (hiff : ∀ i, listed i ↔ listed' i) : Linked m listed' := by
  have heq : listed = listed' := funext fun i => propext (hiff i)
  rwa [heq] at h

theorem of_lists (hcls : ∀ i, (m'.spans i).sizeclass = (m.spans i).sizeclass)
    (hblank : ∀ i, ¬ m.Used i → (m'.spans i).unlinked = (m.spans i).unlinked) (hbump : m'.spansBump = m.spansBump)
    (hfree : m'.spansFreeHead = m.spansFreeHead)
    (hl : ∃ (L : Bool → Nat → List Nat), Lists m' L ∧ ∀ i, listed' i ↔ ∃ b c, i ∈ L b c)
    (hnext : ∀ i, ¬ m.Used i → m'.next i = m.next i) (hlisted : ∀ i, listed' i → m.Used i) : Linked m' listed' := by
  have hused : ∀ i, m'.Used i ↔ m.Used i := by
    intro i
    unfold Used
    rw [hcls]
  constructor
  case lists => exact hl
  case free =>
    obtain ⟨F, hchain, hnodup, hF⟩ := h.free
    rw [hfree, hbump]
    refine ⟨F, hchain.congr (fun i hi => hnext i (hF i hi).2.2), hnodup, ?_⟩
    intro i hi
    rw [hused]
    exact hF i hi
  case used =>
    intro i hi
    rw [hbump]
    exact h.used i ((hused i).mp hi)
  case unused =>
    intro i hi
    rw [hused] at hi
    rw [hblank i hi]
    exact h.unused i hi
  case listed_used =>
    intro i hi
    rw [hused]
    exact hlisted i hi

theorem congr (hnext : ∀ i, m'.next i = m.next i) (hprev : ∀ i, m'.prev i = m.prev i)
    (hcls : ∀ i, (m'.spans i).sizeclass = (m.spans i).sizeclass)
    (hblank : ∀ i, ¬ m.Used i → (m'.spans i).unlinked = (m.spans i).unlinked) (hhead : ∀ b c, m'.head b c = m.head b c)
    (hbump : m'.spansBump = m.spansBump) (hfree : m'.spansFreeHead = m.spansFreeHead) : Linked m' listed := by
  obtain ⟨L, hl, hiff⟩ := h.lists
  apply h.of_lists hcls hblank hbump hfree ⟨L, ?_, hiff⟩ (fun i _ => hnext i) h.listed_used
  exact hl.congr hhead (fun _ _ i _ => hnext i) (fun _ _ i _ => hprev i) (fun _ _ i _ => hcls i)

theorem setSpan (hi : m.Used i) (hnext : s.next = m.next i) (hprev : s.prev = m.prev i)
    (hcls : s.sizeclass = (m.spans i).sizeclass) : Linked (m.setSpan i s) listed := by
  apply h.congr (setSpan_kept Span.next hnext) (setSpan_kept Span.prev hprev) (setSpan_kept Span.sizeclass hcls)
  . intro j hj
    rw [spans_setSpan, if_neg]
    rintro rfl
    exact hj hi
  . intro b c
    rfl
  . rfl
  . rfl

theorem push (hi : ¬ listed i) (hu : m.Used i) (b : Bool) : Linked (m.push b i) (fun j => listed j ∨ j = i) := by
  obtain ⟨L, hl, hiff⟩ := h.lists
  have hnot : ∀ b c, i ∉ L b c := fun b c hmem => hi ((hiff i).mpr ⟨b, c, hmem⟩)
  have hs := push_same m b i
  apply h.of_lists hs.sizeclass (fun j _ => hs.spans j) hs.spansBump hs.spansFreeHead
  . refine ⟨_, hl.push hnot (h.used i hu).1 b, ?_⟩
    intro j
    rw [hiff j, Lists.exists_mem_set, mem_cons]
    grind
  . intro j hj
    rw [next_push, if_neg]
    rintro rfl
    exact hj hu
  . rintro j (hj | rfl)
    . exact h.listed_used j hj
    . exact hu

theorem remove (hi : listed i) : Linked (m.listRemove i) (fun j => listed j ∧ j ≠ i) := by
  obtain ⟨L, hl, hiff⟩ := h.lists
  obtain ⟨b, c, hmem⟩ := (hiff i).mp hi
  obtain ⟨_, hlist⟩ := hl.isList b c
  have hs := listRemove_same m i
  apply h.of_lists hs.sizeclass (fun j _ => hs.spans j) hs.spansBump hs.spansFreeHead
  . refine ⟨_, hl.remove hmem, ?_⟩
    intro j
    have hunique : ∀ b' c', i ∈ L b' c' → b' = b ∧ c' = c := fun _ _ => hl.unique hmem
    rw [hiff j, Lists.exists_mem_set, hlist.nodup.mem_erase_iff]
    grind
  . intro j hj
    have hnl : ∀ b c, j ∉ L b c := fun b c hmem => hj (h.listed_used j ((hiff j).mpr ⟨b, c, hmem⟩))
    rw [next_listRemove, if_neg (fun (heq : j = i) => hnl b c (heq ▸ hmem)), if_neg]
    intro ⟨hp, hne⟩
    rw [hp] at hne
    have := hl.prev_mem hmem hne
    rw [← hp] at this
    exact hnl b c this
  . intro j hj
    exact h.listed_used j hj.1

theorem move (hi : listed i) (b : Bool) : Linked ((m.listRemove i).push b i) listed := by
  have hu : (m.listRemove i).Used i := by
    unfold Used
    rw [(listRemove_same m i).sizeclass]
    exact h.listed_used i hi
  apply ((h.remove hi).push (fun hand => hand.2 rfl) hu b).iff
  intro j
  by_cases heq : j = i
  all_goals simp [heq, hi]

theorem head_listed (hne : m.head b c ≠ nilSpan) : listed (m.head b c) ∧ (m.spans (m.head b c)).sizeclass = c := by
  obtain ⟨_, hl, hiff⟩ := h.lists
  have hmem := hl.head_mem hne
  exact ⟨(hiff _).mpr ⟨b, c, hmem⟩, hl.cls b c _ hmem⟩

theorem next_listed (hi : listed i) (hne : m.next i ≠ nilSpan)
    : listed (m.next i) ∧ (m.spans (m.next i)).sizeclass = (m.spans i).sizeclass := by
  obtain ⟨_, hl, hiff⟩ := h.lists
  obtain ⟨b, c, hmem⟩ := (hiff i).mp hi
  have hnext := hl.next_mem hmem hne
  refine ⟨(hiff _).mpr ⟨b, c, hnext⟩, ?_⟩
  rw [hl.cls b c _ hnext, hl.cls b c _ hmem]

end Linked

theorem rescueFull_go (h : Linked m listed) (fuel idx first : Nat)
    (hidx : idx ≠ nilSpan → listed idx ∧ (m.spans idx).sizeclass = c)
    (hfirst : first ≠ nilSpan → listed first ∧ (m.spans first).sizeclass = c)
    (heq : rescueFull.go fuel idx first m = (idx', m')) : Linked m' listed ∧ SameSpans m m' ∧
        (idx' ≠ nilSpan → listed idx' ∧ (m.spans idx').sizeclass = c) := by
  induction fuel generalizing m idx first with
  | zero =>
    cases heq
    exact ⟨h, SameSpans.refl _, hfirst⟩
  | succ _ ih =>
    unfold rescueFull.go at heq
    split at heq
    . cases heq
      exact ⟨h, SameSpans.refl _, hfirst⟩
    next hne =>
    obtain ⟨hi, hc⟩ := hidx hne
    have hnext : m.next idx ≠ nilSpan →
        listed (m.next idx) ∧ (m.spans (m.next idx)).sizeclass = c := by
      intro hn
      have := h.next_listed hi hn
      rwa [hc] at this
    split at heq
    . exact ih h _ first hnext hfirst heq
    have hs := (listRemove_same m idx).trans (push_same _ true idx)
    have hstep := ih (h.move hi true) _ _
      (by
        intro hn
        rw [hs.sizeclass]
        exact hnext hn)
      (by
        rw [hs.sizeclass]
        split
        . exact fun _ => ⟨hi, hc⟩
        . exact hfirst) heq
    obtain ⟨h1, h2, h3⟩ := hstep
    refine ⟨h1, hs.trans h2, ?_⟩
    intro hn
    have := h3 hn
    rwa [hs.sizeclass] at this

theorem partialSpan_spec (h : Linked m listed) (heq : m.partialSpan c = (idx, m')) : Linked m' listed ∧ SameSpans m m' ∧
        (idx ≠ nilSpan → listed idx ∧ (m.spans idx).sizeclass = c) := by
  unfold partialSpan at heq
  dsimp only at heq
  split at heq
  . unfold rescueFull at heq
    exact rescueFull_go h _ _ _ (h.head_listed (b := false)) (fun hne => absurd rfl hne) heq
  . cases heq
    exact ⟨h, SameSpans.refl m, h.head_listed (b := true)⟩

theorem Linked.replace (h : Linked m listed) (hi : ¬ listed i) (hspans : ∀ j, j ≠ i → m'.spans j = m.spans j)
    (hhead : ∀ b c, m'.head b c = m.head b c) (hbump : m.spansBump ≤ m'.spansBump)
    (hfree : ∃ (F : List Nat), Chain m'.next m'.spansFreeHead F nilSpan ∧ F.Nodup ∧
      ∀ j ∈ F, j ≠ nilSpan ∧ j ≤ m'.spansBump ∧ ¬ m'.Used j)
    (hused : m'.Used i → i ≠ nilSpan ∧ i ≤ m'.spansBump)
    (hunused : ¬ m'.Used i → (m'.spans i).unlinked = Span.new) : Linked m' listed := by
  obtain ⟨L, hl, hiff⟩ := h.lists
  have hne : ∀ j, listed j → j ≠ i := fun j hj heq => hi (heq ▸ hj)
  constructor
  case lists =>
    refine ⟨L, hl.congr hhead ?_ ?_ ?_, hiff⟩
    all_goals
      intro b c j hj
      simp only [next, prev, hspans j (hne j ((hiff j).mpr ⟨b, c, hj⟩))]
  case free => exact hfree
  case used =>
    intro j hj
    by_cases heq : j = i
    . rw [heq] at hj ⊢
      exact hused hj
    unfold Used at hj
    rw [hspans j heq] at hj
    exact ⟨(h.used j hj).1, (h.used j hj).2.trans hbump⟩
  case unused =>
    intro j hj
    by_cases heq : j = i
    . rw [heq] at hj ⊢
      exact hunused hj
    unfold Used at hj
    rw [hspans j heq] at hj ⊢
    exact h.unused j hj
  case listed_used =>
    intro j hj
    unfold Used
    rw [hspans j (hne j hj)]
    exact h.listed_used j hj

theorem Linked.occupy (h : Linked m listed) (hi : ¬ m.Used i) (hne : i ≠ nilSpan)
    (hspans : ∀ j, j ≠ i → m'.spans j = m.spans j) (hhead : ∀ b c, m'.head b c = m.head b c)
    (hle : i ≤ m'.spansBump) (hbump : m.spansBump ≤ m'.spansBump)
    (hfree : ∃ (F : List Nat), Chain m.next m'.spansFreeHead F nilSpan ∧ F.Nodup ∧ i ∉ F ∧
      ∀ j ∈ F, j ≠ nilSpan ∧ j ≤ m'.spansBump ∧ ¬ m.Used j)
    (hs : s.sizeclass ≠ 0) : Linked (m'.setSpan i s) listed := by
  have hnew : ∀ j, j ≠ i → (m'.setSpan i s).spans j = m.spans j := by
    intro j hj
    rw [spans_setSpan, if_neg hj]
    exact hspans j hj
  apply h.replace (fun hl => hi (h.listed_used i hl)) hnew hhead hbump
  . obtain ⟨F, hchain, hnodup, hmem, hF⟩ := hfree
    have hout : ∀ j ∈ F, j ≠ i := fun j hj heq => hmem (heq ▸ hj)
    refine ⟨F, hchain.congr ?_, hnodup, ?_⟩
    . intro j hj
      unfold next
      rw [hnew j (hout j hj)]
    . intro j hj
      unfold Used
      rw [hnew j (hout j hj)]
      exact hF j hj
  . exact fun _ => ⟨hne, hle⟩
  . intro hu
    unfold Used at hu
    rw [spans_setSpan, if_pos rfl] at hu
    contradiction

structure Reserved (m : MCentral) (idx : Nat) (m' : MCentral) : Prop where
  ne_nil : idx ≠ nilSpan
  unused : ¬ m.Used idx
  cached : (m'.spans idx).cached = false
  spans : ∀ j, j ≠ idx → m'.spans j = m.spans j
  pageToSpan : m'.pageToSpan = m.pageToSpan
  arenaBase : m'.arenaBase = m.arenaBase
  trackedPages : m'.trackedPages = m.trackedPages

theorem allocSpanIdx_spec (h : Linked m listed) (heq : m.allocSpanIdx = some (idx, m'))
    : Reserved m idx m' ∧ ∀ s, s.sizeclass ≠ 0 → Linked (m'.setSpan idx s) listed := by
  obtain ⟨F, hchain, hnodup, hF⟩ := h.free
  unfold allocSpanIdx at heq
  dsimp only at heq
  split at heq
  . next hne =>
    -- The head of the chain.
    rcases F with _ | ⟨x, F⟩
    . exact absurd hchain.symm hne
    have hx : m.spansFreeHead = x := hchain.1
    have hxF := hF x (by simp)
    rw [Option.some.injEq, Prod.mk.injEq, hx] at heq
    obtain ⟨h1, h2⟩ := heq
    subst h1 h2
    have hspans : ∀ j, j ≠ x → (({ m with spansFreeHead := (m.spans x).next } : MCentral).setSpan x
        Span.new).spans j = m.spans j := by
      intro j hj
      rw [spans_setSpan, if_neg hj]
    refine ⟨⟨hxF.1, hxF.2.2, ?_, hspans, rfl, rfl, rfl⟩, ?_⟩
    . rw [spans_setSpan, if_pos rfl]
      rfl
    . intro s hs
      apply h.occupy hxF.2.2 hxF.1 hspans (fun _ _ => rfl) hxF.2.1 le_rfl _ hs
      exact ⟨F, hchain.2, (nodup_cons.mp hnodup).2, (nodup_cons.mp hnodup).1,
        fun j hj => hF j (by simp [hj])⟩
  split at heq
  . contradiction
  cases heq
  have hu : ¬ m.Used (m.spansBump + 1) := by
    intro hu
    have := (h.used _ hu).2
    omega
  refine ⟨⟨by unfold nilSpan; omega, hu, h.not_cached hu, fun _ _ => rfl, rfl, rfl, rfl⟩, ?_⟩
  intro s hs
  apply h.occupy hu
  . unfold nilSpan
    omega
  . exact fun _ _ => rfl
  . exact fun _ _ => rfl
  . exact le_rfl
  . exact Nat.le_succ _
  . refine ⟨F, hchain, hnodup, ?_, ?_⟩
    . intro hmem
      have := (hF _ hmem).2.1
      omega
    . intro j hj
      obtain ⟨h1, h2, h3⟩ := hF j hj
      exact ⟨h1, Nat.le_succ_of_le h2, h3⟩
  . exact hs

theorem Linked.releaseSpanIdx (h : Linked m listed) (hi : ¬ listed i) (hu : m.Used i)
    : Linked (m.releaseSpanIdx i) listed := by
  obtain ⟨F, hchain, hnodup, hF⟩ := h.free
  have hspans : ∀ j, j ≠ i → (m.releaseSpanIdx i).spans j = m.spans j := by
    intro j hj
    unfold MCentral.releaseSpanIdx
    rw [spans_setSpan, if_neg hj]
  have hself : (m.releaseSpanIdx i).spans i = { Span.new with next := m.spansFreeHead } := by
    unfold MCentral.releaseSpanIdx
    rw [spans_setSpan, if_pos rfl]
  have hgone : ¬ (m.releaseSpanIdx i).Used i := by
    unfold Used
    rw [hself]
    simp [Span.new]
  have hiF : i ∉ F := fun hmem => (hF i hmem).2.2 hu
  apply h.replace hi hspans (fun _ _ => rfl) le_rfl
  . refine ⟨i :: F, ?_, nodup_cons.mpr ⟨hiF, hnodup⟩, ?_⟩
    . apply hchain.push hiF
      . unfold next
        rw [hself]
      . intro j hj
        unfold next
        rw [hspans j hj]
    . rw [forall_mem_cons]
      refine ⟨⟨(h.used i hu).1, (h.used i hu).2, hgone⟩, ?_⟩
      intro j hj
      unfold Used
      rw [hspans j (fun heq => hiF (heq ▸ hj))]
      exact hF j hj
  . exact fun hu' => absurd hu' hgone
  . intro _
    rw [hself]
    rfl

end MCentral

end Central
