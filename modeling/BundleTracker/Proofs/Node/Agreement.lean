import Mathlib.Tactic
import BundleTracker.Proofs.Chain.Agreement
import BundleTracker.Proofs.Node.Runs

/-!
# Nodes that connect the same blocks

Whatever packages two nodes under the same rules buffer, and however often they stall in
between, the blocks that they connect decide what their chains are, up to the states that
commitments made canonical. If one of those differs, both have the hash in the block.
-/

namespace BundleTracker

namespace ConnectedBlock

/-- The commitments of two blocks made different states with one hash canonical. -/
def Collides (a b : ConnectedBlock) : Prop :=
  ∃ s t, a.committed = some s ∧ b.committed = some t ∧ s ≠ t ∧ s.hash = t.hash

theorem collides {a b : ConnectedBlock} (hne : a.committed ≠ b.committed)
    (hhash : a.committed.map State.hash = b.committed.map State.hash) : a.Collides b := by
  cases ha : a.committed with
  | none =>
    rw [ha, Option.map_none] at hhash
    exact absurd (ha.trans (Option.map_eq_none_iff.mp hhash.symm).symm) hne
  | some s =>
    rw [ha, Option.map_some] at hhash
    obtain ⟨t, hb, ht⟩ := Option.map_eq_some_iff.mp hhash.symm
    refine ⟨s, t, ha, hb, ?_, ht.symm⟩
    rintro rfl
    exact hne (ha.trans hb.symm)

theorem Collides.ne {a b : ConnectedBlock} (h : a.Collides b) : a ≠ b := by
  obtain ⟨s, t, hs, ht, hne, -⟩ := h
  rintro rfl
  exact hne (Option.some.inj (hs.symm.trans ht))

/-- What a run sees of a block: its height and the outputs of its coinbase. -/
def content (b : ConnectedBlock) : UInt64 × List Output := (b.height, b.outputs)

/-- Whether the block carries the hash of the state that it made canonical. -/
def Carries (tag : Tag) (b : ConnectedBlock) : Prop :=
  Coinbase.findCommitment tag b.outputs = .ok (b.committed.map State.hash)

theorem exists_collides {tag : Tag} {blocks others : List ConnectedBlock}
    (hblocks : ∀ b ∈ blocks, b.Carries tag) (hothers : ∀ b ∈ others, b.Carries tag)
    (hcontent : blocks.map content = others.map content) (hne : blocks ≠ others) :
    ∃ (i : Nat) (a b : ConnectedBlock),
      blocks[i]? = some a ∧ others[i]? = some b ∧ a.Collides b := by
  induction blocks generalizing others with
  | nil =>
    cases others with
    | nil => exact absurd rfl hne
    | cons b rest' => cases hcontent
  | cons a rest ih =>
    cases others with
    | nil => cases hcontent
    | cons b rest' =>
      simp only [List.map_cons, List.cons.injEq, content, Prod.mk.injEq] at hcontent
      obtain ⟨⟨hheight, houtputs⟩, hrest⟩ := hcontent
      obtain ⟨ha, hafter⟩ := List.forall_mem_cons.mp hblocks
      obtain ⟨hb, hafter'⟩ := List.forall_mem_cons.mp hothers
      by_cases hsame : a.committed = b.committed
      · obtain rfl := ConnectedBlock.ext hheight houtputs hsame
        have hne' : rest ≠ rest' := by
          rintro rfl
          exact hne rfl
        obtain ⟨i, x, y, hx, hy, hxy⟩ := ih hafter hafter' hrest hne'
        exact ⟨i + 1, x, y, hx, hy, hxy⟩
      · have hhash : a.committed.map State.hash = b.committed.map State.hash := by
          rw [Carries, houtputs] at ha
          exact Except.ok.inj (ha.symm.trans hb)
        exact ⟨0, a, b, rfl, rfl, collides hsame hhash⟩

end ConnectedBlock

namespace Node

variable {n : Node}

/-- The block that a call connects, if it goes through. -/
def block? (n : Node) : Call → Option ConnectedBlock
  | .connect height outputs =>
    match (n.connectBlock height outputs).2 with
    | .ok outcome => some ⟨height, outputs, n.committed? height outcome⟩
    | .error _ => none
  | _ => none

def connected (n : Node) : List Call → List ConnectedBlock
  | [] => []
  | c :: rest => (n.block? c).toList ++ (n.call c).connected rest

/-- Whether a call moves the chain by connecting a block or not at all. -/
def Keeps (n : Node) : Call → Prop
  | .reconcile height commitment => ∃ e, (n.reconcile height commitment).2 = .error e
  | .reset => False
  | _ => True

/-- Whether a run moves the chain by connecting blocks only. -/
def Blockwise (n : Node) : List Call → Prop
  | [] => True
  | c :: rest => n.Keeps c ∧ (n.call c).Blockwise rest

section Steps

/-- The chain of the node that a connected block leads to is the one that follows from the state
that the block made canonical. -/
theorem follows_connectBlock {m : Node} {height : UInt64} {outputs : List Output}
    {outcome : BlockOutcome} (hn : n.Sound)
    (hok : n.connectBlock height outputs = (m, .ok outcome)) :
    (n.chain.follow ⟨height, outputs, n.committed? height outcome⟩).Agrees m.chain := by
  obtain ⟨-, ⟨source, hcommitted, -, hchain⟩ | ⟨hcommitted, -, hchain⟩⟩ :=
    chain_connectBlock hn.legal hok
  all_goals
    rw [hcommitted, hchain]
    apply Chain.Agrees.endPeriods
    exact ⟨.refl _, rfl, rfl, rfl, rfl⟩

theorem follows_connect (hn : n.Sound) (height : UInt64) (outputs : List Output) :
    (n.chain.followAll (n.block? (.connect height outputs)).toList).Agrees
      (n.connectBlock height outputs).1.chain := by
  unfold block?
  dsimp only
  cases hresult : n.connectBlock height outputs with
  | mk m result =>
    cases result with
    | ok outcome => exact follows_connectBlock hn hresult
    | error e =>
      have hstep := n.connects hn.legal height outputs
      rw [hresult] at hstep
      cases hstep with
      | conflict _ => exact .refl _
      | refused _ => exact .refl _
      | stalled _ _ _ => exact (n.sameButStalls_stall height _).agrees

theorem follows_call (hn : n.Sound) {c : Call} (hc : n.Keeps c) :
    (n.chain.followAll (n.block? c).toList).Agrees (n.call c).chain := by
  cases c with
  | add package =>
    rw [call, chain_addPackage]
    exact .refl _
  | reconcile height commitment =>
    obtain ⟨e, he⟩ := hc
    have hstep := n.reconciles hn.legal height commitment
    unfold call
    dsimp only
    generalize n.reconcile height commitment = result at he hstep ⊢
    cases hstep with
    | refused _ => exact .refl _
    | settled _ _ => cases he
    | stalled _ _ => exact (n.sameButStalls_stall height commitment).agrees
  | connect height outputs => exact follows_connect hn height outputs
  | reset => exact hc.elim
  | subscribe => exact .refl _
  | next mailbox => exact .refl _
  | drain mailbox => exact .refl _
  | close mailbox => exact .refl _

theorem carries_of_block? (hn : n.Sound) {c : Call} {block : ConnectedBlock}
    (h : n.block? c = some block) : block.Carries n.chain.params.commitmentTag := by
  cases c with
  | connect height outputs =>
    unfold block? at h
    dsimp only at h
    cases hresult : n.connectBlock height outputs with
    | mk m result =>
      rw [hresult] at h
      cases result with
      | ok outcome =>
        obtain rfl := Option.some.inj h
        obtain ⟨hfound, ⟨source, hcommitted, hcommitment, -⟩ | ⟨hcommitted, hcommitment, -⟩⟩ :=
          chain_connectBlock hn.legal hresult
        all_goals
          rw [ConnectedBlock.Carries, hfound, hcommitted, hcommitment]
          rfl
      | error e => cases h
  | _ => cases h

end Steps

section Runs

/-- A run moves the chain as the blocks do that it connects. -/
theorem follows_run (hn : n.Sound) (calls : List Call) (h : n.Blockwise calls) :
    (n.chain.followAll (n.connected calls)).Agrees (n.run calls).chain := by
  induction calls generalizing n with
  | nil => exact .refl _
  | cons c rest ih =>
    obtain ⟨hc, hrest⟩ := h
    rw [connected, Chain.followAll, List.foldl_append]
    have hstep := (follows_call hn hc).followAll ((n.call c).connected rest)
    exact hstep.trans (ih (hn.call c) hrest)

theorem carries_of_mem_connected (hn : n.Sound) (calls : List Call) (h : n.Blockwise calls)
    {block : ConnectedBlock} (hblock : block ∈ n.connected calls) :
    block.Carries n.chain.params.commitmentTag := by
  induction calls generalizing n with
  | nil => cases hblock
  | cons c rest ih =>
    obtain ⟨hc, hrest⟩ := h
    rcases List.mem_append.mp hblock with hblock | hblock
    · exact carries_of_block? hn (Option.mem_toList.mp hblock)
    · have hrules := (follows_call hn hc).rules
      rw [Chain.params_followAll] at hrules
      rw [hrules.commitmentTag_eq]
      exact ih (hn.call c) hrest hblock

/-- Two nodes under the same rules that connect the same blocks have the same tip, and the same
state with the same hash, unless some block made two different states with one hash canonical. -/
theorem agree_or_collide {p q : Params} {m : Node} (hn : start p = .ok n) (hm : start q = .ok m)
    (hrules : p.SameRules q) (calls calls' : List Call) (hcalls : n.Blockwise calls)
    (hcalls' : m.Blockwise calls')
    (hblocks : (n.connected calls).map ConnectedBlock.content =
      (m.connected calls').map ConnectedBlock.content) :
    (n.run calls).chain.tip = (m.run calls').chain.tip ∧
      ((n.run calls).chain.state = (m.run calls').chain.state ∧
          (n.run calls).chain.hash = (m.run calls').chain.hash ∨
        ∃ (i : Nat) (a b : ConnectedBlock), (n.connected calls)[i]? = some a ∧
          (m.connected calls')[i]? = some b ∧ a.Collides b) := by
  obtain ⟨-, rfl⟩ := start_eq_ok_iff.mp hn
  obtain ⟨-, rfl⟩ := start_eq_ok_iff.mp hm
  have hfirst := follows_run (.fresh p) calls hcalls
  have hsecond := follows_run (.fresh q) calls' hcalls'
  constructor
  · rw [← hfirst.tip_eq, ← hsecond.tip_eq, Chain.tip_followAll, Chain.tip_followAll]
    have hheights := congrArg (List.map Prod.fst) hblocks
    rw [List.map_map, List.map_map] at hheights
    exact congrArg (fun heights : List UInt64 => heights.getLast?.or none) hheights
  · by_cases hsame : (fresh p).connected calls = (fresh q).connected calls'
    · left
      have hstart : (fresh p).chain.Agrees (fresh q).chain := ⟨hrules, rfl, rfl, rfl, rfl⟩
      have hboth := hstart.followAll ((fresh q).connected calls')
      rw [hsame] at hfirst
      rw [← hfirst.state_eq, ← hfirst.hash_eq, hboth.state_eq, hboth.hash_eq, hsecond.state_eq,
        hsecond.hash_eq]
      exact ⟨rfl, rfl⟩
    · right
      have hothers : ∀ b ∈ (fresh q).connected calls', b.Carries p.commitmentTag := by
        intro b hb
        rw [hrules.commitmentTag_eq]
        exact carries_of_mem_connected (.fresh q) calls' hcalls' hb
      have hours : ∀ b ∈ (fresh p).connected calls, b.Carries p.commitmentTag := by
        intro b hb
        exact carries_of_mem_connected (.fresh p) calls hcalls hb
      exact ConnectedBlock.exists_collides hours hothers hblocks hsame

/-- A node with small limits stalls first, and another one has more packages to choose from. -/
theorem agree_after_stall :
    let tight : Params := { maxCombination := 1, maxPackagesPerHeight := 1 }
    let package : Package := ⟨7, [⟨⟨0, Block.zero 32⟩, 7⟩]⟩
    let outputs := Coinbase.dataOutputs tight.commitmentTag tight.proposalTag
      (some ((fresh tight).predictCommitment package)) [⟨1, Block.zero 32⟩]
    let calls : List Call := [.add ⟨7, []⟩, .add package, .subscribe, .connect 7 outputs]
    let calls' : List Call := [.connect 7 outputs, .add ⟨7, []⟩, .add package, .connect 7 outputs]
    ((fresh {}).connected calls).map ConnectedBlock.content = [(7, outputs)] ∧
      ((fresh tight).connected calls').map ConnectedBlock.content = [(7, outputs)] ∧
      ((fresh {}).run calls).chain.tip = ((fresh tight).run calls').chain.tip ∧
      ((fresh {}).run calls).chain.state = ((fresh tight).run calls').chain.state ∧
      ((fresh {}).run calls).chain.hash = ((fresh tight).run calls').chain.hash := by
  intro tight package outputs calls calls'
  have hstart : start {} = .ok (fresh {}) := start_of_check (by decide +kernel)
  have hstart' : start tight = .ok (fresh tight) := start_of_check (by decide +kernel)
  have hrules : Params.SameRules {} tight := ⟨rfl, rfl, rfl, rfl⟩
  have hcalls : (fresh {}).Blockwise calls := ⟨trivial, trivial, trivial, trivial, trivial⟩
  have hcalls' : (fresh tight).Blockwise calls' := ⟨trivial, trivial, trivial, trivial, trivial⟩
  have hblocks : ((fresh {}).connected calls).map ConnectedBlock.content = [(7, outputs)] := by
    decide +kernel
  have hblocks' : ((fresh tight).connected calls').map ConnectedBlock.content =
      [(7, outputs)] := by
    decide +kernel
  have hsame : (fresh {}).connected calls = (fresh tight).connected calls' := by decide +kernel
  obtain ⟨htip, hstate | ⟨i, a, b, ha, hb, hab⟩⟩ := agree_or_collide hstart hstart' hrules calls
    calls' hcalls hcalls' (hblocks.trans hblocks'.symm)
  · exact ⟨hblocks, hblocks', htip, hstate⟩
  · rw [hsame] at ha
    exact absurd (Option.some.inj (ha.symm.trans hb)) hab.ne

end Runs

end Node

end BundleTracker
