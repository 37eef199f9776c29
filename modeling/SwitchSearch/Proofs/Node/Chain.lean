import SwitchSearch.Proofs.Node.Counters

/-!
This module contains what a node that is made step by step from a root says about these steps: it has
their channels as its sequence, counts the switches among them, and keeps the nodes on its way as its
ancestors.
-/

namespace SwitchSearch

/-- The places of a sequence where a channel goes on after another one. -/
def switchPlaces (channel : Nat) (sequence : List Nat) : List Nat :=
  (List.range sequence.length).filter fun place =>
    0 < place ∧ sequence[place]? = some channel ∧ sequence[place - 1]? ≠ some channel

theorem switchPlaces_concat (channel next : Nat) (sequence : List Nat)
    : switchPlaces channel (sequence ++ [next]) =
      switchPlaces channel sequence ++
        if channel = next ∧ ¬(sequence.getLast? = none ∨ sequence.getLast? = some next) then
          [sequence.length]
        else
          [] := by
  unfold switchPlaces
  rw [List.length_append, List.length_singleton, List.range_succ, List.filter_append]
  congr 1
  . apply List.filter_congr
    intro place hmem
    have hplace := List.mem_range.mp hmem
    rw [List.getElem?_append_left hplace, List.getElem?_append_left (by omega)]
  . rw [List.filter_singleton, List.getElem?_concat_length]
    cases sequence using List.reverseRecOn with
    | nil => simp
    | append_singleton sequence last =>
      have hpos : 0 < (sequence ++ [last]).length := by simp
      have hbefore : (sequence ++ [last] ++ [next])[(sequence ++ [last]).length - 1]? = some last := by simp
      rw [hbefore, List.getLast?_concat]
      grind

theorem length_switchPlaces (channel : Nat) (sequence : List Nat)
    : (switchPlaces channel sequence).length = switchOns channel sequence := by
  induction sequence using List.reverseRecOn with
  | nil => rfl
  | append_singleton sequence next ih =>
    rw [switchPlaces_concat, switchOns_concat, List.length_append, ih]
    split <;> rfl

theorem map_toNat_max? (counts : List UInt32)
    : counts.max?.map (·.toNat) = (counts.map (·.toNat)).max? := by
  cases counts with
  | nil => rfl
  | cons first counts =>
    rw [List.map_cons, List.max?_cons', List.max?_cons', Option.map_some, Option.some.injEq,
      List.foldl_map]
    symm
    apply List.foldl_hom
    intro largest count
    exact (UInt32.toNat_max largest count).symm

namespace Node

variable {channels : Nat} {node last : Node} {moves : List (Nat × Float)}

def extendAll (node : Node) (moves : List (Nat × Float)) : Except ExtendError Node :=
  moves.foldlM (fun node (channel, bound) => node.extend channel bound) node

def ancestor (node : Node) : (generations : Nat) → Option Node
  | 0 => some node
  | generations + 1 => node.parent?.bind (·.ancestor generations)

theorem extendAll_concat_eq_ok_iff {channel : Nat} {bound : Float}
    : node.extendAll (moves ++ [(channel, bound)]) = .ok last ↔
      ∃ prior, node.extendAll moves = .ok prior ∧ prior.extend channel bound = .ok last := by
  unfold extendAll
  simp only [List.foldlM_append, List.foldlM_cons, List.foldlM_nil, bind_pure]
  cases moves.foldlM (fun node (channel, bound) => node.extend channel bound) node with
  | error error => simp [bind, Except.bind]
  | ok prior => simp [bind, Except.bind]

theorem sequence_of_extendAll (h : node.extendAll moves = .ok last)
    : last.sequence = node.sequence ++ moves.map Prod.fst := by
  induction moves using List.reverseRecOn generalizing last with
  | nil =>
    cases h
    rw [List.map_nil, List.append_nil]
  | append_singleton moves move ih =>
    rcases extendAll_concat_eq_ok_iff.mp h with ⟨prior, hprior, hextend⟩
    rw [(sequence_of_extend hextend).left, ih hprior, List.map_append, List.append_assoc]
    rfl

theorem Counts.extendAll (h : Counts channels node) (hmoves : ∀ move ∈ moves, move.1 < channels)
    (hlength : node.depth + moves.length < 2 ^ 33)
    : ∃ last, node.extendAll moves = .ok last ∧ Counts channels last := by
  induction moves using List.reverseRecOn with
  | nil => exact ⟨node, rfl, h⟩
  | append_singleton moves move ih =>
    rw [List.length_append, List.length_singleton] at hlength
    rw [List.forall_mem_append, List.forall_mem_singleton] at hmoves
    rcases ih hmoves.left (by omega) with ⟨prior, hprior, hcounts⟩
    have hdepth : prior.depth + 1 < 2 ^ 33 := by
      rw [hcounts.depth_eq, sequence_of_extendAll hprior, List.length_append, List.length_map,
        ← h.depth_eq]
      omega
    rcases hcounts.extend hmoves.right hdepth move.2 with ⟨last, hextend, hlast⟩
    exact ⟨last, extendAll_concat_eq_ok_iff.mpr ⟨prior, hprior, hextend⟩, hlast⟩

theorem exists_ancestor (h : node.extendAll moves = .ok last) {generations : Nat}
    (hgenerations : generations ≤ moves.length)
    : ∃ above, node.extendAll (moves.take (moves.length - generations)) = .ok above ∧
        last.ancestor generations = some above := by
  induction moves using List.reverseRecOn generalizing last generations with
  | nil =>
    cases h
    cases Nat.le_zero.mp hgenerations
    exact ⟨_, rfl, rfl⟩
  | append_singleton moves move ih =>
    cases generations with
    | zero =>
      rw [Nat.sub_zero, List.take_length]
      exact ⟨last, h, rfl⟩
    | succ generations =>
      rcases extendAll_concat_eq_ok_iff.mp h with ⟨prior, hprior, hextend⟩
      rw [List.length_append, List.length_singleton] at hgenerations ⊢
      rcases ih hprior (Nat.le_of_succ_le_succ hgenerations) with ⟨above, habove, hancestor⟩
      refine ⟨above, ?_, ?_⟩
      . rw [Nat.add_sub_add_right, List.take_append_of_le_length (Nat.sub_le _ _)]
        exact habove
      . rw [ancestor, parent?_of_extend hextend]
        exact hancestor

theorem toNat_maxSwitches_eq (node : Node)
    : node.maxSwitches.toNat = (node.switches.map (·.toNat)).max?.getD 0 := by
  unfold maxSwitches
  rw [← map_toNat_max?]
  cases node.switches.max? <;> rfl

theorem Counts.toNat_maxSwitches (h : Counts channels node)
    : node.maxSwitches.toNat = (Finset.range channels).sup (switchOns · node.sequence) := by
  rw [toNat_maxSwitches_eq, h.switches_eq]
  cases hmax : ((List.range channels).map (switchOns · node.sequence)).max? with
  | none =>
    rw [List.max?_eq_none_iff, List.map_eq_nil_iff, List.range_eq_nil] at hmax
    rw [hmax]
    rfl
  | some largest =>
    rw [List.max?_eq_some_iff, List.forall_mem_map] at hmax
    rcases List.mem_map.mp hmax.left with ⟨channel, hmem, hlargest⟩
    apply Nat.le_antisymm
    . rw [Option.getD_some, ← hlargest]
      exact Finset.le_sup (f := (switchOns · node.sequence))
        (Finset.mem_range.mpr (List.mem_range.mp hmem))
    . apply Finset.sup_le
      intro other hother
      exact hmax.right other (List.mem_range.mpr (Finset.mem_range.mp hother))

theorem ancestor_add (node : Node) (first second : Nat)
    : node.ancestor (first + second) = (node.ancestor first).bind (·.ancestor second) := by
  induction first generalizing node with
  | zero => rw [Nat.zero_add, ancestor, Option.bind_some]
  | succ first ih =>
    rw [Nat.succ_add, ancestor, ancestor]
    cases node.parent? with
    | none => rfl
    | some parent => exact ih parent

/--
Fewer than `2 ^ 33` moves on existing channels never fail. The node that they make from a root has their
channels as its sequence, and it counts for each channel at how many places it goes on after another one,
which is at most half of them all. Its ancestors are the nodes that the first moves make.
-/
theorem exists_extendAll_root {channels : Nat} (bound : Float) {moves : List (Nat × Float)}
    (hmoves : ∀ move ∈ moves, move.1 < channels) (hlength : moves.length < 2 ^ 33)
    : ∃ node, (root channels bound).extendAll moves = .ok node ∧
        node.depth = moves.length ∧
        node.sequence = moves.map Prod.fst ∧
        node.channel = (moves.map Prod.fst).getLast? ∧
        node.switches.map (·.toNat) =
          (List.range channels).map (fun channel => (switchPlaces channel (moves.map Prod.fst)).length) ∧
        node.maxSwitches.toNat =
          (Finset.range channels).sup (fun channel => (switchPlaces channel (moves.map Prod.fst)).length) ∧
        node.maxSwitches.toNat ≤ moves.length / 2 ∧
        (∀ generations ≤ moves.length,
          ∃ above, (root channels bound).extendAll (moves.take (moves.length - generations)) = .ok above ∧
            node.ancestor generations = some above) ∧
        node.ancestor (moves.length + 1) = none := by
  have hroot := root_counts channels bound
  rcases hroot.extendAll hmoves (Nat.lt_of_le_of_lt (Nat.le_of_eq (Nat.zero_add _)) hlength) with
    ⟨node, hnode, hcounts⟩
  have hsequence : node.sequence = moves.map Prod.fst := sequence_of_extendAll hnode
  have hmax := hcounts.toNat_maxSwitches
  simp only [length_switchPlaces]
  rw [← hsequence]
  refine ⟨node, hnode, ?_, rfl, hcounts.channel_eq, hcounts.switches_eq, hmax, ?_, ?_, ?_⟩
  . rw [hcounts.depth_eq, hsequence, List.length_map]
  . rw [hmax]
    apply Finset.sup_le
    intro channel hchannel
    have hbound := two_mul_switchOns_le channel node.sequence
    rw [hsequence, List.length_map] at hbound
    rw [hsequence]
    omega
  . exact fun generations hgenerations => exists_ancestor hnode hgenerations
  . rcases exists_ancestor hnode (Nat.le_refl _) with ⟨first, hfirst, hancestor⟩
    rw [Nat.sub_self, List.take_zero] at hfirst
    cases hfirst
    rw [ancestor_add, hancestor]
    rfl

theorem exists_extendAll_root_fourMoves
    : ∃ node, (root 2 0.0).extendAll [(1, 0.5), (0, 1.0), (1, 1.5), (1, 2.0)] = .ok node ∧
        node.sequence = [1, 0, 1, 1] ∧ node.switches.map (·.toNat) = [1, 1] ∧ node.maxSwitches.toNat = 1 ∧
        node.ancestor 4 = some (root 2 0.0) := by
  have hmoves : ∀ move ∈ [(1, 0.5), (0, 1.0), (1, 1.5), (1, (2.0 : Float))], move.1 < 2 := by simp
  rcases exists_extendAll_root 0.0 hmoves (by decide) with
    ⟨node, hnode, hdepth, hsequence, hchannel, hswitches, hmax, hhalf, hancestors, hend⟩
  rcases hancestors 4 (Nat.le_refl 4) with ⟨first, hfirst, hancestor⟩
  cases hfirst
  exact ⟨node, hnode, hsequence, hswitches, hmax, hancestor⟩

end Node

end SwitchSearch
