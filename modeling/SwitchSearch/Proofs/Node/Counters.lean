import SwitchSearch.Node
import Mathlib

/-!
This module contains what the counters of a node count: the switches of the sequence that the node
fixes. As a channel must go off before it can be switched on again, no counter exceeds half the depth,
so that the counters do not overflow before depth `2 ^ 33`.
-/

namespace SwitchSearch

def switchOns (channel : Nat) : List Nat → Nat
  | previous :: current :: rest =>
    (if previous ≠ channel ∧ current = channel then 1 else 0) + switchOns channel (current :: rest)
  | _ => 0

theorem switchOns_concat (channel next : Nat) (sequence : List Nat)
    : switchOns channel (sequence ++ [next]) =
      if channel = next ∧ ¬(sequence.getLast? = none ∨ sequence.getLast? = some next) then
        switchOns channel sequence + 1
      else
        switchOns channel sequence := by
  fun_induction switchOns channel sequence with
  | case1 previous current rest ih =>
    rw [List.cons_append, List.cons_append, switchOns, ← List.cons_append, ih]
    rw [List.getLast?_cons_cons, apply_ite (_ + ·), Nat.add_assoc]
  | case2 sequence hshort =>
    match sequence with
    | [] => simp [switchOns]
    | [previous] =>
      simp only [List.cons_append, List.nil_append, switchOns, List.getLast?_singleton]
      grind
    | previous :: current :: rest => exact absurd rfl (hshort previous current rest)

theorem two_mul_switchOns_le (channel : Nat) (sequence : List Nat)
    : 2 * switchOns channel sequence +
        (if sequence.getLast? = none ∨ sequence.getLast? = some channel then 0 else 1) ≤
      sequence.length := by
  induction sequence using List.reverseRecOn with
  | nil => simp [switchOns]
  | append_singleton sequence next ih =>
    rw [switchOns_concat, List.getLast?_concat, List.length_append, List.length_singleton]
    grind

namespace Node

structure Counts (channels : Nat) (node : Node) : Prop where
  depth_eq : node.depth = node.sequence.length
  channel_eq : node.channel = node.sequence.getLast?
  switches_eq :
    node.switches.map (·.toNat) = (List.range channels).map (switchOns · node.sequence)
  channels_lt : ∀ channel ∈ node.sequence, channel < channels

variable {channels : Nat} {node : Node}

theorem Counts.length_eq (h : Counts channels node) : node.switches.length = channels := by
  simpa using congrArg List.length h.switches_eq

theorem Counts.toNat_switches (h : Counts channels node) {channel : Nat} {count : UInt32}
    (hcount : node.switches[channel]? = some count)
    : count.toNat = switchOns channel node.sequence := by
  have hget := congrArg (·[channel]?) h.switches_eq
  simp only [List.getElem?_map, hcount, Option.map_some] at hget
  grind

theorem root_counts (channels : Nat) (bound : Float) : Counts channels (root channels bound) := by
  constructor
  . rfl
  . rfl
  . have hsequence : (root channels bound).sequence = [] := rfl
    have hswitches : (root channels bound).switches = List.replicate channels 0 := rfl
    simp [hsequence, hswitches, switchOns, List.map_const']
  . exact nofun

theorem eq_below_of_extend {parent child : Node} {channel : Nat} {bound : Float}
    (h : parent.extend channel bound = .ok child)
    : ∃ switches, switchOn parent.channel channel parent.switches = .ok switches ∧ child =
        below (some parent) { channel := some channel, depth := parent.depth + 1, bound, switches } := by
  unfold extend at h
  split at h
  . contradiction
  . next switches hswitches =>
    split at h
    . cases h
      exact ⟨switches, hswitches, rfl⟩
    . contradiction

theorem sequence_of_extend {parent child : Node} {channel : Nat} {bound : Float}
    (h : parent.extend channel bound = .ok child)
    : child.sequence = parent.sequence ++ [channel] ∧ child.bound = bound := by
  rcases eq_below_of_extend h with ⟨switches, hswitches, hchild⟩
  rw [hchild]
  exact ⟨sequence_below_some _ _, rfl⟩

theorem depth_of_extend {parent child : Node} {channel : Nat} {bound : Float}
    (h : parent.extend channel bound = .ok child)
    : child.depth = parent.depth + 1 := by
  rcases eq_below_of_extend h with ⟨switches, hswitches, hchild⟩
  rw [hchild]
  rfl

theorem parent?_of_extend {parent child : Node} {channel : Nat} {bound : Float}
    (h : parent.extend channel bound = .ok child)
    : child.parent? = some parent := by
  rcases eq_below_of_extend h with ⟨switches, hswitches, hchild⟩
  rw [hchild]
  exact parent?_below _ _

theorem Counts.switchOn (h : Counts channels node) {channel : Nat} (hchannel : channel < channels)
    (hdepth : node.depth + 1 < 2 ^ 33)
    : ∃ switches, switchOn node.channel channel node.switches = .ok switches ∧
      switches.map (·.toNat) =
        (List.range channels).map (switchOns · (node.sequence ++ [channel])) := by
  have hlt : channel < node.switches.length := by
    rw [h.length_eq]
    exact hchannel
  have hget := List.getElem?_eq_getElem hlt
  generalize node.switches[channel] = count at hget
  have hcount := h.toNat_switches hget
  -- a channel is off between two switches, so its counter is at most half the depth
  have hbound := two_mul_switchOns_le channel node.sequence
  rw [← h.depth_eq, ← hcount, ← h.channel_eq] at hbound
  unfold Node.switchOn
  rw [hget]
  dsimp only
  split
  . next hsame =>
    refine ⟨_, rfl, ?_⟩
    rw [h.switches_eq]
    apply List.map_congr_left
    intro other hother
    rw [switchOns_concat, ← h.channel_eq, if_neg (fun hswitch => hswitch.right hsame)]
  . next hother =>
    rw [if_neg hother] at hbound
    have hroom : count.toNat + 1 < UInt32.size := by
      simp only [UInt32.size]
      omega
    rw [if_pos hroom]
    refine ⟨_, rfl, ?_⟩
    have hnext : (count + 1).toNat = count.toNat + 1 := by
      rw [UInt32.toNat_add]
      exact Nat.mod_eq_of_lt hroom
    rw [List.map_set, h.switches_eq, hnext, hcount]
    apply List.ext_getElem
    . simp
    . intro place hleft hright
      simp only [List.getElem_set, List.getElem_map, List.getElem_range]
      rw [switchOns_concat, ← h.channel_eq]
      grind

theorem Counts.extend (h : Counts channels node) {channel : Nat} (hchannel : channel < channels)
    (hdepth : node.depth + 1 < 2 ^ 33) (bound : Float)
    : ∃ child, node.extend channel bound = .ok child ∧ Counts channels child := by
  rcases h.switchOn hchannel hdepth with ⟨switches, hswitches, hcounts⟩
  have hroom : node.depth + 1 < depthLimit := Nat.lt_trans hdepth (by decide)
  unfold Node.extend
  rw [hswitches]
  dsimp only
  rw [if_pos hroom]
  refine ⟨_, rfl, ?_⟩
  have hsequence := sequence_below_some node
    { channel := some channel, depth := node.depth + 1, bound, switches }
  dsimp only [Option.toList] at hsequence
  constructor
  . rw [hsequence, List.length_append, ← h.depth_eq]
    rfl
  . rw [hsequence, List.getLast?_concat]
    rfl
  . rw [hsequence]
    exact hcounts
  . rw [hsequence]
    intro other hmem
    cases List.mem_append.mp hmem with
    | inl hold => exact h.channels_lt other hold
    | inr hnew =>
      rw [List.mem_singleton.mp hnew]
      exact hchannel

end Node

end SwitchSearch
