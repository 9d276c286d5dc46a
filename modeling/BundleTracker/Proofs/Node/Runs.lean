import Mathlib.Tactic
import BundleTracker.Proofs.Node.Steps
import BundleTracker.Proofs.Package.Buffer

/-!
# The runs of a node

A node is reachable if some calls lead to it from a node with valid parameters, be they
answered or refused. Every call keeps the canonical state legal and the limit of the buffer
at what the parameters say.
-/

namespace BundleTracker

namespace Node

variable {n : Node}

inductive Call
  | add (package : Package)
  | reconcile (height : UInt64) (commitment : Digest)
  | connect (height : UInt64) (outputs : List Output)
  | reset
  | subscribe
  | next (mailbox : Nat)
  | drain (mailbox : Nat)
  | close (mailbox : Nat)

def call (n : Node) : Call → Node
  | .add package => (n.addPackage package).1
  | .reconcile height commitment => (n.reconcile height commitment).1
  | .connect height outputs => (n.connectBlock height outputs).1
  | .reset => n.reset
  | .subscribe => { n with hub := n.hub.subscribe.1 }
  | .next mailbox => { n with hub := (n.hub.next mailbox).1 }
  | .drain mailbox => { n with hub := (n.hub.drain mailbox).1 }
  | .close mailbox => { n with hub := (n.hub.close mailbox).1 }

def run (n : Node) (calls : List Call) : Node := calls.foldl call n

@[simp] theorem run_cons (n : Node) (c : Call) (rest : List Call) :
    n.run (c :: rest) = (n.call c).run rest := rfl

/-- Calls lead to the node from one with valid parameters and nothing in it. -/
inductive Reachable : Node → Prop
  | start {p : Params} {n : Node} : Node.start p = .ok n → Reachable n
  | call {n : Node} (c : Call) : Reachable n → Reachable (n.call c)

theorem Reachable.run (h : n.Reachable) (calls : List Call) : (n.run calls).Reachable := by
  induction calls generalizing n with
  | nil => exact h
  | cons c rest ih =>
    rw [run_cons]
    exact ih (h.call c)

def fresh (p : Params) : Node where
  chain := .start p
  buffer := { maxPerHeight := p.maxPackagesPerHeight.toNat
              maxHeights := p.maxBufferedHeights.toNat }
  hub := {}

theorem start_eq_ok_iff {p : Params} : start p = .ok n ↔ p.Valid ∧ n = fresh p := by
  rw [← Params.check_eq_ok_iff, start]
  cases p.check with
  | error e => simp [Except.mapError]
  | ok _ =>
    constructor
    · intro h
      exact ⟨rfl, (Except.ok.inj h).symm⟩
    · rintro ⟨-, rfl⟩
      rfl

theorem start_of_check {p : Params} (h : p.check = .ok ()) : start p = .ok (fresh p) :=
  start_eq_ok_iff.mpr ⟨Params.check_eq_ok_iff.mp h, rfl⟩

theorem reachable_fresh : (fresh {}).Reachable :=
  .start (start_of_check (by decide +kernel))

/-- What handing in a package does: it is turned away at the door or goes to the buffer. -/
theorem addPackage_cases (n : Node) (p : Package) :
    (∃ admission, n.rejects? p = some admission ∧ n.addPackage p = (n, admission)) ∨
      n.rejects? p = none ∧
        n.addPackage p = ({ n with buffer := (n.buffer.add p).1 }, (n.buffer.add p).2) := by
  unfold addPackage
  cases h : n.rejects? p with
  | some admission => exact Or.inl ⟨admission, rfl, rfl⟩
  | none => exact Or.inr ⟨rfl, rfl⟩

@[simp] theorem chain_addPackage (n : Node) (p : Package) : (n.addPackage p).1.chain = n.chain := by
  rcases n.addPackage_cases p with ⟨admission, -, h⟩ | ⟨-, h⟩
  · rw [h]
  · rw [h]

theorem hub_addPackage (n : Node) (p : Package) : (n.addPackage p).1.hub = n.hub := by
  rcases n.addPackage_cases p with ⟨admission, -, h⟩ | ⟨-, h⟩
  · rw [h]
  · rw [h]

theorem stale_or_tooFar_of_rejects? {p : Package} {admission : Admission}
    (h : n.rejects? p = some admission) : admission = .stale ∨ admission = .tooFar := by
  obtain ⟨tip, -, h⟩ := Option.bind_eq_some_iff.mp h
  split_ifs at h
  · exact Or.inl (Option.some.inj h).symm
  · exact Or.inr (Option.some.inj h).symm

theorem lt_height_of_rejects? {p : Package} {tip : UInt64} (htip : n.chain.tip = some tip)
    (h : n.rejects? p = none) : tip < p.height := by
  rw [rejects?, htip, Option.bind_some] at h
  split_ifs at h with hstale
  exact UInt64.not_le.mp hstale

/-- The canonical state is legal, and the buffer has the limit of the parameters. -/
structure Sound (n : Node) : Prop where
  legal : n.chain.Legal
  maxPerHeight_eq : n.buffer.maxPerHeight = n.chain.params.maxPackagesPerHeight.toNat

namespace Sound

theorem fresh (p : Params) : (fresh p).Sound where
  legal := .start p
  maxPerHeight_eq := rfl

theorem addPackage (h : n.Sound) (p : Package) : (n.addPackage p).1.Sound where
  legal := by
    rw [chain_addPackage]
    exact h.legal
  maxPerHeight_eq := by
    rw [chain_addPackage, ← h.maxPerHeight_eq]
    rcases n.addPackage_cases p with ⟨admission, -, heq⟩ | ⟨-, heq⟩
    · rw [heq]
    · rw [heq, Buffer.maxPerHeight_add]

theorem adopt (h : n.Sound) (height : UInt64) (source : Source) :
    (n.adopt (n.candidate height source)).Sound :=
  ⟨h.legal.adopt height _ source,
    (n.buffer.maxPerHeight_pruneThrough height).trans h.maxPerHeight_eq⟩

theorem stall (h : n.Sound) (height : UInt64) (expected : Digest) :
    (n.stall height expected).Sound :=
  ⟨h.legal, h.maxPerHeight_eq⟩

theorem pass (h : n.Sound) (height : UInt64) : (n.pass height).Sound :=
  ⟨h.legal, (n.buffer.maxPerHeight_pruneThrough height).trans h.maxPerHeight_eq⟩

theorem reconcile (h : n.Sound) (height : UInt64) (commitment : Digest) :
    (n.reconcile height commitment).1.Sound := by
  have hstep := n.reconciles h.legal height commitment
  generalize n.reconcile height commitment = result at hstep ⊢
  cases hstep with
  | refused _ => exact h
  | @settled source _ _ =>
    exact ⟨(h.adopt height source).legal, (h.adopt height source).maxPerHeight_eq⟩
  | stalled _ _ => exact h.stall height commitment

theorem finish (h : n.Sound) (height : UInt64) (outputs : List Output) (events : List Event) :
    (n.finish height outputs events).1.Sound where
  legal := h.legal.endPeriods height _
  maxPerHeight_eq := by
    rw [params_finish]
    exact h.maxPerHeight_eq

theorem connectBlock (h : n.Sound) (height : UInt64) (outputs : List Output) :
    (n.connectBlock height outputs).1.Sound := by
  have hstep := n.connects h.legal height outputs
  generalize n.connectBlock height outputs = result at hstep ⊢
  cases hstep with
  | conflict _ => exact h
  | refused _ => exact h
  | settled _ _ _ => exact (h.adopt height _).finish height outputs _
  | stalled _ _ _ => exact h.stall height _
  | passed _ _ => exact (h.pass height).finish height outputs _

theorem call (h : n.Sound) (c : Call) : (n.call c).Sound := by
  cases c with
  | add package => exact h.addPackage package
  | reconcile height commitment => exact h.reconcile height commitment
  | connect height outputs => exact h.connectBlock height outputs
  | reset => exact ⟨.start _, h.maxPerHeight_eq⟩
  | subscribe => exact ⟨h.legal, h.maxPerHeight_eq⟩
  | next mailbox => exact ⟨h.legal, h.maxPerHeight_eq⟩
  | drain mailbox => exact ⟨h.legal, h.maxPerHeight_eq⟩
  | close mailbox => exact ⟨h.legal, h.maxPerHeight_eq⟩

theorem params_call (h : n.Sound) (c : Call) : (n.call c).chain.params = n.chain.params := by
  cases c with
  | add package => rw [Node.call, chain_addPackage]
  | reconcile height commitment =>
    have hstep := n.reconciles h.legal height commitment
    unfold Node.call
    dsimp only
    generalize n.reconcile height commitment = result at hstep ⊢
    cases hstep <;> rfl
  | connect height outputs =>
    have hstep := n.connects h.legal height outputs
    unfold Node.call
    dsimp only
    generalize n.connectBlock height outputs = result at hstep ⊢
    cases hstep with
    | conflict _ => rfl
    | refused _ => rfl
    | settled _ _ _ => exact params_finish _ _ _ _
    | stalled _ _ _ => rfl
    | passed _ _ => exact params_finish _ _ _ _
  | _ => rfl

theorem params_run (h : n.Sound) (calls : List Call) :
    (n.run calls).chain.params = n.chain.params := by
  induction calls generalizing n with
  | nil => rfl
  | cons c rest ih =>
    rw [run_cons, ih (h.call c), h.params_call]

theorem run (h : n.Sound) (calls : List Call) : (n.run calls).Sound := by
  induction calls generalizing n with
  | nil => exact h
  | cons c rest ih =>
    rw [run_cons]
    exact ih (h.call c)

end Sound

theorem Reachable.sound (h : n.Reachable) : n.Sound := by
  induction h with
  | start hstart =>
    obtain ⟨-, rfl⟩ := start_eq_ok_iff.mp hstart
    exact .fresh _
  | call c _ ih => exact ih.call c

theorem Reachable.valid (hn : n.Reachable) : n.chain.params.Valid := by
  induction hn with
  | start hstart =>
    obtain ⟨hvalid, rfl⟩ := start_eq_ok_iff.mp hstart
    exact hvalid
  | call c hreachable ih => rwa [hreachable.sound.params_call]

end Node

end BundleTracker
