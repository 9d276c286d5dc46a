import Mathlib.Tactic
import BundleTracker.Proofs.Chain.Runs
import BundleTracker.Proofs.Node.Runs

/-!
# Operations that fail

A block that is refused leaves the node as it is, and one that stalls adds to the stall count
of its height. What a node answers does not depend on stall counts, as long as the answer is
not a stall, so the operations that fail can be left out of a run: the others answer the same,
and the same state, tip, hash and buffer come out.
-/

namespace BundleTracker

namespace Chain

variable {c d c' : Chain} {height : UInt64}

namespace SameButStalls

theorem symm (h : c.SameButStalls d) : d.SameButStalls c where
  params_eq := h.params_eq.symm
  state_eq := h.state_eq.symm
  hash_eq := h.hash_eq.symm
  tip_eq := h.tip_eq.symm
  lastBoundary_eq := h.lastBoundary_eq.symm

theorem trans {e : Chain} (h : c.SameButStalls d) (h' : d.SameButStalls e) : c.SameButStalls e where
  params_eq := h'.params_eq.trans h.params_eq
  state_eq := h'.state_eq.trans h.state_eq
  hash_eq := h'.hash_eq.trans h.hash_eq
  tip_eq := h'.tip_eq.trans h.tip_eq
  lastBoundary_eq := h'.lastBoundary_eq.trans h.lastBoundary_eq

theorem checkHeight_eq (h : c.SameButStalls d) (height : UInt64) :
    d.checkHeight height = c.checkHeight height := by
  unfold checkHeight next?
  rw [h.tip_eq]

theorem search_eq (h : c.SameButStalls d) (height : UInt64) (expected : Digest)
    (packages : List Package) :
    d.search height expected packages = c.search height expected packages := by
  unfold search
  rw [h.checkHeight_eq, h.params_eq, h.state_eq]

theorem predict_eq (h : c.SameButStalls d) (p : Package) : d.predict p = c.predict p := by
  unfold predict next?
  rw [h.params_eq, h.state_eq, h.tip_eq]

theorem commit_of_ok (h : c.SameButStalls d) {candidate : Candidate} {event : Event}
    (hok : c.commit candidate = .ok (c', event)) :
    ∃ d', d.commit candidate = .ok (d', event) ∧ c'.SameButStalls d' := by
  have hstep := c.commits candidate
  rw [hok] at hstep
  cases hstep with
  | committed hheight hlegal =>
    refine ⟨d.adopt candidate, commit_eq ?_ ?_, h.params_eq, rfl, rfl, rfl, h.lastBoundary_eq⟩
    · rwa [h.checkHeight_eq]
    · rwa [h.params_eq]

theorem reconcile_of_ok (h : c.SameButStalls d) {expected : Digest} {packages : List Package}
    {event : Event} (hok : c.reconcile height expected packages = (c', .ok event)) :
    ∃ d', d.reconcile height expected packages = (d', .ok event) ∧ c'.SameButStalls d' := by
  unfold reconcile at hok ⊢
  rw [h.search_eq]
  split at hok
  · cases hok
  · cases hok
  · rename_i candidate hfound
    split at hok
    · cases hok
    · rename_i next event' hcommit
      cases hok
      obtain ⟨d', hd', hsame⟩ := h.commit_of_ok hcommit
      simp only [hd']
      exact ⟨d', rfl, hsame⟩

theorem skip_of_ok (h : c.SameButStalls d) (hok : c.skip height = .ok c') :
    ∃ d', d.skip height = .ok d' ∧ c'.SameButStalls d' := by
  cases hheight : c.checkHeight height with
  | error e =>
    rw [skip_eq_error hheight] at hok
    cases hok
  | ok _ =>
    rw [skip_eq hheight] at hok
    obtain rfl := Except.ok.inj hok
    rw [← h.checkHeight_eq] at hheight
    exact ⟨_, skip_eq hheight, h.params_eq, h.state_eq, h.hash_eq, rfl, h.lastBoundary_eq⟩

theorem endPeriods (h : c.SameButStalls d) (height : UInt64) (proposals : List Bundle) :
    (d.endPeriods height proposals).2 = (c.endPeriods height proposals).2 ∧
      (c.endPeriods height proposals).1.SameButStalls (d.endPeriods height proposals).1 := by
  have hnothing : d.NothingEnds height proposals ↔ c.NothingEnds height proposals := by
    unfold NothingEnds
    rw [h.lastBoundary_eq, h.state_eq, h.params_eq]
  unfold Chain.endPeriods
  by_cases hends : c.NothingEnds height proposals
  · rw [if_pos hends, if_pos (hnothing.mpr hends)]
    exact ⟨rfl, h⟩
  · rw [if_neg hends, if_neg (hnothing.not.mpr hends), h.state_eq, h.params_eq]
    exact ⟨rfl, rfl, rfl, rfl, h.tip_eq, rfl⟩

theorem boundary_of_ok (h : c.SameButStalls d) (hlegal : c.Legal) {proposals : List Bundle}
    {event? : Option Event} (hok : c.boundary height proposals = .ok (c', event?)) :
    ∃ d', d.boundary height proposals = .ok (d', event?) ∧ c'.SameButStalls d' := by
  have hlegal' : d.Legal := by
    rw [Legal, h.state_eq, h.params_eq]
    exact hlegal
  obtain ⟨hevent, hsame⟩ := h.endPeriods height proposals
  rcases hlegal.boundary_cases height proposals with heq | ⟨tip, -, -, heq⟩
  · rw [heq, Except.ok.injEq, Prod.mk.injEq] at hok
    obtain ⟨rfl, rfl⟩ := hok
    rcases hlegal'.boundary_cases height proposals with heq' | ⟨tip, htip, hne, -⟩
    · exact ⟨_, by rw [heq', ← hevent], hsame⟩
    · rw [h.tip_eq] at htip
      simp only [boundary, htip, if_pos hne] at heq
      cases heq
  · rw [heq] at hok
    cases hok

end SameButStalls

end Chain

theorem Buffer.add_of_turned_away {b : Buffer} {p : Package}
    (h : (b.add p).2 ≠ .buffered ∧ (b.add p).2 ≠ .replaced) : (b.add p).1 = b := by
  cases hadded : (b.add p).2 with
  | duplicate => exact (mem_of_add_duplicate hadded).2
  | buffered => exact absurd hadded h.1
  | replaced => exact absurd hadded h.2
  | stale | tooFar =>
    have hadds := b.adds p
    generalize b.add p = result at hadded hadds ⊢
    cases hadds with
    | refused _ => rfl
    | taken _ hstores => cases hstores <;> cases hadded

@[simp] theorem Hub.length_mailboxes_publishAll {α : Type} (hub : Hub α) (events : List α) :
    (hub.publishAll events).mailboxes.length = hub.mailboxes.length := by
  unfold publishAll
  induction events generalizing hub with
  | nil => rfl
  | cons event rest ih =>
    rw [List.foldl_cons, ih]
    exact List.length_map _

namespace Node

variable {n m n' : Node} {height : UInt64}

/-- Two nodes that may differ in their stall counts and in what their mailboxes hold only. -/
structure SameStanding (n m : Node) : Prop where
  chain : n.chain.SameButStalls m.chain
  buffer_eq : m.buffer = n.buffer
  mailboxes_eq : m.hub.mailboxes.length = n.hub.mailboxes.length

namespace SameStanding

theorem refl (n : Node) : n.SameStanding n := ⟨.refl _, rfl, rfl⟩

theorem symm (h : n.SameStanding m) : m.SameStanding n :=
  ⟨h.chain.symm, h.buffer_eq.symm, h.mailboxes_eq.symm⟩

theorem trans {l : Node} (h : n.SameStanding m) (h' : m.SameStanding l) : n.SameStanding l :=
  ⟨h.chain.trans h'.chain, h'.buffer_eq.trans h.buffer_eq, h'.mailboxes_eq.trans h.mailboxes_eq⟩

theorem publish (h : n.SameStanding m) (events : List Event) :
    (n.publish events).SameStanding (m.publish events) where
  chain := h.chain
  buffer_eq := h.buffer_eq
  mailboxes_eq := by
    simp only [Node.publish, Hub.length_mailboxes_publishAll]
    exact h.mailboxes_eq

theorem stall (n : Node) (height : UInt64) (expected : Digest) :
    n.SameStanding (n.stall height expected) where
  chain := n.sameButStalls_stall height expected
  buffer_eq := rfl
  mailboxes_eq := Hub.length_mailboxes_publishAll _ _

theorem addPackage (h : n.SameStanding m) (p : Package) :
    (m.addPackage p).2 = (n.addPackage p).2 ∧
      (n.addPackage p).1.SameStanding (m.addPackage p).1 := by
  have hrejects : m.rejects? p = n.rejects? p := by
    unfold rejects?
    rw [h.chain.tip_eq, h.chain.params_eq]
  unfold Node.addPackage
  rw [hrejects, h.buffer_eq]
  split
  · exact ⟨rfl, h⟩
  · exact ⟨rfl, h.chain, rfl, h.mailboxes_eq⟩

theorem settle_of_ok (h : n.SameStanding m) {commitment : Digest} {event : Event}
    (hok : n.settle height commitment = (n', .ok event)) :
    ∃ m', m.settle height commitment = (m', .ok event) ∧ n'.SameStanding m' := by
  unfold settle at hok ⊢
  rw [h.buffer_eq]
  split at hok
  · rename_i chain event' hreconcile
    cases hok
    obtain ⟨chain', hchain', hsame⟩ := h.chain.reconcile_of_ok hreconcile
    simp only [hchain']
    exact ⟨_, rfl, hsame, rfl, h.mailboxes_eq⟩
  · cases hok

theorem reconcile_of_ok (h : n.SameStanding m) {commitment hash : Digest}
    (hok : n.reconcile height commitment = (n', .ok hash)) :
    ∃ m', m.reconcile height commitment = (m', .ok hash) ∧ n'.SameStanding m' := by
  unfold reconcile at hok ⊢
  split at hok
  · rename_i settled event hsettle
    cases hok
    obtain ⟨settled', hsettled', hsame⟩ := h.settle_of_ok hsettle
    simp only [hsettled', hsame.chain.hash_eq]
    exact ⟨_, rfl, hsame.publish [event]⟩
  · cases hok

theorem advance_of_ok (h : n.SameStanding m) {commitment : Option Digest} {events : List Event}
    (hok : n.advance height commitment = (n', .ok events)) :
    ∃ m', m.advance height commitment = (m', .ok events) ∧ n'.SameStanding m' := by
  cases commitment with
  | some commitment =>
    unfold advance at hok ⊢
    dsimp only at hok ⊢
    split at hok
    · rename_i settled event hsettle
      cases hok
      obtain ⟨settled', hsettled', hsame⟩ := h.settle_of_ok hsettle
      simp only [hsettled']
      exact ⟨settled', rfl, hsame⟩
    · cases hok
  | none =>
    unfold advance skip at hok ⊢
    dsimp only at hok ⊢
    cases hskip : n.chain.skip height with
    | error e =>
      rw [hskip] at hok
      cases hok
    | ok chain =>
      rw [hskip] at hok
      cases hok
      obtain ⟨chain', hchain', hsame⟩ := h.chain.skip_of_ok hskip
      rw [hchain', h.buffer_eq]
      exact ⟨_, rfl, hsame, rfl, h.mailboxes_eq⟩

end SameStanding

theorem legal_of_advance (hlegal : n.chain.Legal) {commitment : Option Digest}
    {events : List Event} (hok : n.advance height commitment = (n', .ok events)) :
    n'.chain.Legal := by
  cases commitment with
  | some commitment =>
    have hstep := n.settles hlegal height commitment
    unfold advance at hok
    dsimp only at hok
    generalize n.settle height commitment = result at hok hstep
    cases hstep with
    | refused _ => cases hok
    | settled _ _ =>
      cases hok
      exact hlegal.adopt height _ _
    | stalled _ _ => cases hok
  | none =>
    unfold advance skip at hok
    dsimp only at hok
    cases hheight : n.chain.checkHeight height with
    | error e =>
      rw [Chain.skip_eq_error hheight] at hok
      cases hok
    | ok _ =>
      rw [Chain.skip_eq hheight] at hok
      cases hok
      exact hlegal

theorem SameStanding.connectBlock_of_ok (h : n.SameStanding m) (hlegal : n.chain.Legal)
    {outputs : List Output} {outcome : BlockOutcome}
    (hok : n.connectBlock height outputs = (n', .ok outcome)) :
    ∃ m', m.connectBlock height outputs = (m', .ok outcome) ∧ n'.SameStanding m' := by
  unfold connectBlock at hok ⊢
  rw [h.chain.params_eq]
  split at hok
  · cases hok
  · rename_i commitment hfound
    split at hok
    · cases hok
    · rename_i advanced events hadvance
      obtain ⟨advanced', hadvanced', hsame⟩ := h.advance_of_ok hadvance
      dsimp only at hok
      split at hok
      · cases hok
      · rename_i chain event? hboundary
        cases hok
        obtain ⟨chain', hchain', hended⟩ :=
          hsame.chain.boundary_of_ok (legal_of_advance hlegal hadvance) hboundary
        simp only [hadvanced', hsame.chain.params_eq, hchain']
        have hall : SameStanding { advanced with chain } { advanced' with chain := chain' } :=
          ⟨hended, hsame.buffer_eq, hsame.mailboxes_eq⟩
        exact ⟨_, rfl, hall.publish _⟩

section Operations

inductive Question
  | passes (bundle : Bundle)
  | state
  | hash
  | tip
  | head
  | params
  | buffered
  | predict (package : Package)
  deriving DecidableEq

inductive Operation
  | add (package : Package)
  | reconcile (height : UInt64) (commitment : Digest)
  | connect (height : UInt64) (outputs : List Output)
  | reset
  | subscribe
  | ask (question : Question)
  deriving DecidableEq

/-- What a node answers to an operation. Events in mailboxes are no answers. -/
inductive Answer
  | admission (admission : Admission)
  | reconciled (result : Except ChainError Digest)
  | connected (result : Except ChainError BlockOutcome)
  | done
  | mailbox (id : Nat)
  | verdict (passes : Bool)
  | state (state : State)
  | hash (hash : Digest)
  | tip (tip : Option UInt64)
  | head (tip : Option UInt64) (hash : Digest)
  | params (params : Params)
  | buffered (count : Nat)

/-- Whether the answer is an error, or that a package was turned away. -/
def Answer.fails : Answer → Bool
  | .admission .duplicate => true
  | .admission .stale => true
  | .admission .tooFar => true
  | .reconciled (.error _) => true
  | .connected (.error _) => true
  | _ => false

def ask (n : Node) : Question → Answer
  | .passes bundle => .verdict (n.chain.passes bundle)
  | .state => .state n.chain.state
  | .hash => .hash n.chain.hash
  | .tip => .tip n.chain.tip
  | .head => .head n.chain.tip n.chain.hash
  | .params => .params n.chain.params
  | .buffered => .buffered n.buffer.size
  | .predict package => .hash (n.predictCommitment package)

def perform (n : Node) : Operation → Node × Answer
  | .add package => ((n.addPackage package).1, .admission (n.addPackage package).2)
  | .reconcile height commitment =>
    ((n.reconcile height commitment).1, .reconciled (n.reconcile height commitment).2)
  | .connect height outputs =>
    ((n.connectBlock height outputs).1, .connected (n.connectBlock height outputs).2)
  | .reset => (n.reset, .done)
  | .subscribe => ({ n with hub := n.hub.subscribe.1 }, .mailbox n.hub.subscribe.2)
  | .ask question => (n, n.ask question)

def after (n : Node) : List Operation → Node
  | [] => n
  | op :: rest => (n.perform op).1.after rest

def answers (n : Node) : List Operation → List Answer
  | [] => []
  | op :: rest => (n.perform op).2 :: (n.perform op).1.answers rest

/-- The operations of a run that do not fail in it. -/
def lasting (n : Node) : List Operation → List Operation
  | [] => []
  | op :: rest =>
    if (n.perform op).2.fails then (n.perform op).1.lasting rest
    else op :: (n.perform op).1.lasting rest

theorem SameStanding.ask_eq (h : n.SameStanding m) (question : Question) :
    m.ask question = n.ask question := by
  cases question <;>
    simp only [ask, Chain.passes, predictCommitment, h.chain.params_eq, h.chain.state_eq,
      h.chain.hash_eq, h.chain.tip_eq, h.chain.predict_eq, h.buffer_eq]

theorem Sound.perform (hn : n.Sound) (op : Operation) : (n.perform op).1.Sound := by
  cases op with
  | add package => exact hn.addPackage package
  | reconcile height commitment => exact hn.reconcile height commitment
  | connect height outputs => exact hn.connectBlock height outputs
  | reset => exact hn.call .reset
  | subscribe => exact hn.call .subscribe
  | ask question => exact hn

theorem sameStanding_of_fails (hn : n.Sound) {op : Operation}
    (h : (n.perform op).2.fails = true) : n.SameStanding (n.perform op).1 := by
  cases op with
  | add package =>
    rcases n.addPackage_cases package with ⟨admission, -, heq⟩ | ⟨-, heq⟩
    · rw [perform, heq]
      exact .refl n
    · rw [perform, heq] at h ⊢
      refine ⟨.refl _, Buffer.add_of_turned_away ⟨?_, ?_⟩, rfl⟩
      · intro hbuffered
        rw [hbuffered] at h
        cases h
      · intro hreplaced
        rw [hreplaced] at h
        cases h
  | reconcile height commitment =>
    have hstep := n.reconciles hn.legal height commitment
    unfold perform at h ⊢
    dsimp only at h ⊢
    generalize n.reconcile height commitment = result at h hstep ⊢
    cases hstep with
    | refused _ => exact .refl n
    | settled _ _ => cases h
    | stalled _ _ => exact .stall n height commitment
  | connect height outputs =>
    have hstep := n.connects hn.legal height outputs
    unfold perform at h ⊢
    dsimp only at h ⊢
    generalize n.connectBlock height outputs = result at h hstep ⊢
    cases hstep with
    | conflict _ => exact .refl n
    | refused _ => exact .refl n
    | settled _ _ _ => cases h
    | stalled _ _ _ => exact .stall n height _
    | passed _ _ => cases h
  | reset => cases h
  | subscribe => cases h
  | ask question => exact .refl n

/-- Stall counts and mailboxes do not decide what an operation does that does not fail. -/
theorem SameStanding.perform (h : n.SameStanding m) (hn : n.Sound) {op : Operation}
    (hlasts : (n.perform op).2.fails = false) :
    (m.perform op).2 = (n.perform op).2 ∧
      (n.perform op).1.SameStanding (m.perform op).1 := by
  cases op with
  | add package =>
    obtain ⟨hanswer, hsame⟩ := h.addPackage package
    exact ⟨congrArg Answer.admission hanswer, hsame⟩
  | reconcile height commitment =>
    cases hresult : n.reconcile height commitment with
    | mk n' result =>
      simp only [Node.perform, hresult] at hlasts ⊢
      cases result with
      | error e => cases hlasts
      | ok hash =>
        obtain ⟨m', hm', hsame⟩ := h.reconcile_of_ok hresult
        rw [hm']
        exact ⟨rfl, hsame⟩
  | connect height outputs =>
    cases hresult : n.connectBlock height outputs with
    | mk n' result =>
      simp only [Node.perform, hresult] at hlasts ⊢
      cases result with
      | error e => cases hlasts
      | ok outcome =>
        obtain ⟨m', hm', hsame⟩ := h.connectBlock_of_ok hn.legal hresult
        rw [hm']
        exact ⟨rfl, hsame⟩
  | reset =>
    have hempty : SameStanding { n with chain := n.chain.reset.1, buffer := n.buffer.clear }
        { m with chain := m.chain.reset.1, buffer := m.buffer.clear } :=
      ⟨⟨h.chain.params_eq, rfl, rfl, rfl, rfl⟩, congrArg Buffer.clear h.buffer_eq, h.mailboxes_eq⟩
    exact ⟨rfl, hempty.publish [.reset]⟩
  | subscribe =>
    refine ⟨congrArg Answer.mailbox h.mailboxes_eq, h.chain, h.buffer_eq, ?_⟩
    simp only [Node.perform, Hub.subscribe, List.length_append, h.mailboxes_eq]
  | ask question => exact ⟨h.ask_eq question, h⟩

/-- Without the operations that fail, a run gives the other answers and leads to the same. -/
theorem SameStanding.lasting (h : n.SameStanding m) (hn : n.Sound) (ops : List Operation) :
    m.answers (n.lasting ops) = (n.answers ops).filter (fun answer => !answer.fails) ∧
      (n.after ops).SameStanding (m.after (n.lasting ops)) := by
  induction ops generalizing n m with
  | nil => exact ⟨rfl, h⟩
  | cons op rest ih =>
    cases hfails : (n.perform op).2.fails with
    | true =>
      have hback : (n.perform op).1.SameStanding m := (sameStanding_of_fails hn hfails).symm.trans h
      obtain ⟨hanswers, hsame⟩ := ih hback (hn.perform op)
      simp only [Node.lasting, answers, after, hfails, if_true, List.filter_cons]
      exact ⟨hanswers, hsame⟩
    | false =>
      obtain ⟨hanswer, hnext⟩ := h.perform hn hfails
      obtain ⟨hanswers, hsame⟩ := ih hnext (hn.perform op)
      simp only [Node.lasting, answers, after, hfails, List.filter_cons]
      exact ⟨by simp [answers, hanswer, hanswers], hsame⟩

end Operations

/-- What an error at `height` leaves behind: at most one more stall of that height. -/
structure LeavesNoTrace (n m : Node) (height : UInt64) (e : ChainError) : Prop where
  chain : n.chain.SameButStalls m.chain
  buffer_eq : m.buffer = n.buffer
  cause : (∃ conflict, e = .coinbase conflict) ∨ (∃ expected, e = .outOfOrder expected height) ∨
    ∃ stall, e = .stall stall
  of_other : (∀ stall, e ≠ .stall stall) → m = n
  of_stall : ∀ stall, e = .stall stall → stall.height = height ∧
    stall.attempt = n.chain.stalls.getD height 0 + 1 ∧
    m.chain.stalls = n.chain.stalls.insert height stall.attempt

section Errors

theorem leavesNoTrace_of_checkHeight {e : ChainError}
    (h : n.chain.checkHeight height = .error e) : LeavesNoTrace n n height e := by
  obtain ⟨next, -, -, rfl⟩ := Chain.checkHeight_eq_error h
  refine ⟨.refl _, rfl, Or.inr (Or.inl ⟨next, rfl⟩), fun _ => rfl, ?_⟩
  intro stall hstall
  cases hstall

theorem leavesNoTrace_of_stall (n : Node) (height : UInt64) (expected : Digest) :
    LeavesNoTrace n (n.stall height expected) height
      (.stall (n.chain.recordStall height expected (n.selections height)).2) := by
  refine ⟨n.sameButStalls_stall height expected, rfl, Or.inr (Or.inr ⟨_, rfl⟩), ?_, ?_⟩
  · intro hother
    exact absurd rfl (hother _)
  · intro stall hstall
    cases hstall
    exact ⟨rfl, rfl, rfl⟩

theorem leavesNoTrace_of_conflict (n : Node) (height : UInt64) (conflict : Coinbase.Conflict) :
    LeavesNoTrace n n height (.coinbase conflict) := by
  refine ⟨.refl _, rfl, Or.inl ⟨conflict, rfl⟩, fun _ => rfl, ?_⟩
  intro stall hstall
  cases hstall

theorem leavesNoTrace_of_reconcile (hlegal : n.chain.Legal) {commitment : Digest} {e : ChainError}
    (h : n.reconcile height commitment = (m, .error e)) : LeavesNoTrace n m height e := by
  have hstep := n.reconciles hlegal height commitment
  rw [h] at hstep
  cases hstep with
  | refused hheight => exact leavesNoTrace_of_checkHeight hheight
  | stalled _ _ => exact leavesNoTrace_of_stall n height commitment

theorem leavesNoTrace_of_connectBlock (hlegal : n.chain.Legal) {outputs : List Output}
    {e : ChainError} (h : n.connectBlock height outputs = (m, .error e)) :
    LeavesNoTrace n m height e := by
  have hstep := n.connects hlegal height outputs
  rw [h] at hstep
  cases hstep with
  | conflict _ => exact leavesNoTrace_of_conflict n height _
  | refused hheight => exact leavesNoTrace_of_checkHeight hheight
  | stalled _ _ _ => exact leavesNoTrace_of_stall n height _

/-- A block that is refused or stalls leaves state, hash, tip, last boundary and buffer, and only
a stall is counted. So the operations of a run that fail can be left out of it: what is left
answers the same, and leads to the same state, hash, tip and buffer. -/
theorem failures_leave_no_trace (hn : n.Reachable) :
    (∀ height commitment m e, n.reconcile height commitment = (m, .error e) →
      LeavesNoTrace n m height e) ∧
    (∀ height outputs m e, n.connectBlock height outputs = (m, .error e) →
      LeavesNoTrace n m height e) ∧
    ∀ ops : List Operation,
      n.answers (n.lasting ops) = (n.answers ops).filter (fun answer => !answer.fails) ∧
        (n.after ops).SameStanding (n.after (n.lasting ops)) := by
  refine ⟨?_, ?_, ?_⟩
  · intro height commitment m e h
    exact leavesNoTrace_of_reconcile hn.sound.legal h
  · intro height outputs m e h
    exact leavesNoTrace_of_connectBlock hn.sound.legal h
  · intro ops
    exact (SameStanding.refl n).lasting hn.sound ops

/-- A package that comes twice, a block that stalls, one out of order, and two that go through. -/
theorem no_trace_of_stall_and_duplicate :
    let package : Package := ⟨7, [⟨⟨0, Block.zero 32⟩, 7⟩]⟩
    let bad := Coinbase.dataOutputs (fresh {}).chain.params.commitmentTag
      (fresh {}).chain.params.proposalTag (some ⟨List.replicate 32 1, rfl⟩) []
    let ops : List Operation := [.connect 6 [], .add package, .add package, .connect 7 bad,
      .connect 9 [], .connect 7 [], .ask .tip]
    (fresh {}).Reachable ∧
      (fresh {}).lasting ops = [.connect 6 [], .add package, .connect 7 [], .ask .tip] ∧
      (fresh {}).answers [.connect 6 [], .add package, .connect 7 [], .ask .tip] =
        ((fresh {}).answers ops).filter (fun answer => !answer.fails) := by
  intro package bad ops
  have hlasting : (fresh {}).lasting ops =
      [.connect 6 [], .add package, .connect 7 [], .ask .tip] := by
    decide +kernel
  refine ⟨reachable_fresh, hlasting, ?_⟩
  rw [← hlasting]
  exact ((failures_leave_no_trace reachable_fresh).2.2 ops).1

end Errors

end Node

end BundleTracker
