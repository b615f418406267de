import Goish.Regexp.Lemmas.Paths

namespace Regexp

variable {text : List UInt8} {pos : Nat}

theorem cont_runs (text : List UInt8) (cont : List Node)
    : ContRuns text (1 + seqFuel text.length cont) 0 (cont.map .node) fun pos caps =>
        first (fun pos caps => some (pos, caps)) (seqPaths .code text cont pos caps) := by
  have := @seq_adequate text cont (fun node _ => node.adequate text) [] 1 0 _ nil_runs
  rwa [List.append_nil] at this

theorem match_finishes (text : List UInt8) (node : Node) (cont : List Node) (hpos : pos ≤ text.length)
    : ∃ enough, ∀ fuel, enough ≤ fuel → ∀ caps,
        (tryMatch text fuel node pos caps (cont.map .node)).isSome ∧
          ∀ min max greedy prev, (matchRepeat text fuel node min max greedy pos caps (cont.map .node) prev).isSome := by
  have hcont := cont_runs text cont
  refine ⟨1 + seqFuel text.length cont + (text.length + 1) * (node.fuel text.length + 2) + 1, ?_⟩
  intro fuel hfuel caps
  constructor
  . obtain ⟨_, hr, _⟩ := node.adequate text _ _ _ _ hcont fuel (by lia) pos (Nat.zero_le _) hpos caps
    simp [hr]
  intro min max greedy prev
  cases hstop : stopped pos prev with
  | none =>
    obtain ⟨_, hr, _⟩ := repeat_runs (node.adequate text) greedy hcont (text.length + 1) 0 fuel hfuel pos (Nat.zero_le _) hpos
      (by omega) caps min max prev hstop
    rw [hr]
    rfl
  | some before =>
    rcases fuel with _ | fuel
    . omega
    obtain ⟨_, hr, _⟩ := hcont fuel (by omega) pos (Nat.zero_le _) hpos before
    simp only [matchRepeat, hstop]
    simp [hr]

theorem match_finishes_nested : ∃ enough, ∀ fuel, enough ≤ fuel → ∀ caps,
        (tryMatch [0x61, 0x61, 0x62] fuel
          (.repeats (.repeats (.leaf (.literal 0x61)) 0 usizeMax (Nat.zero_le _) true) 1 usizeMax (by decide) false) 0 caps
          [.node (.leaf (.literal 0x62))]).isSome := by
  obtain ⟨enough, h⟩ := match_finishes [0x61, 0x61, 0x62] _ [.leaf (.literal 0x62)] (Nat.zero_le 3)
  exact ⟨enough, fun fuel hfuel caps => (h fuel hfuel caps).1⟩

end Regexp
