import CanonicalXml.Canonicalizer
import CanonicalXml.Proofs.Faults.Writing
import CanonicalXml.Proofs.Parsed.Drafts
import CanonicalXml.Proofs.Sessions.Delivery

/-! # Sessions with a limited output

A session is any sequence of calls and changes of settings.  What an output receives during one
is the beginning of what the calls write, and where the output fails is the only difference to a
session without it.

* `Canonicalizer.Call`, `Canonicalizer.Action` — what a session is made of.
* `Canonicalizer.stream`, `Canonicalizer.streams` — what is written where nothing is refused.
* `Canonicalizer.perform_eq` — every call delivers one transcript, which the settings determine.
* `Canonicalizer.perform_limited` — one call; `Canonicalizer.after_setOutput`,
  `Canonicalizer.session_limited` — a whole session.
-/

namespace CanonicalXml.Canonicalizer

/-- A call, with all that is handed to it. -/
inductive Call where
  | document (bytes : List UInt8)
  | tree (d : Document)
  | subtree (apex : Place) (inclusivePrefixes : List String) (propagateDefault : Bool)
  | nodeSet (d : Document) (s : NodeSet) (inclusivePrefixes : List String)

def perform (c : Canonicalizer) : Call → Canonicalizer × Except Fault String
  | .document bytes => c.document bytes
  | .tree d => c.tree d
  | .subtree apex inclusivePrefixes propagateDefault =>
    c.subtree apex inclusivePrefixes propagateDefault
  | .nodeSet d s inclusivePrefixes => c.nodeSet d s inclusivePrefixes

/-- What is done with a canonicalizer once its output is set. -/
inductive Action where
  | setSecure (secure : Bool)
  | setLimits (limits : Limits)
  | call (call : Call)

def act (c : Canonicalizer) : Action → Canonicalizer
  | .setSecure secure => c.setSecure secure
  | .setLimits limits => c.setLimits limits
  | .call call => (c.perform call).1

def after (c : Canonicalizer) (actions : List Action) : Canonicalizer :=
  actions.foldl act c

/-- How the calls of a session end. -/
def outcomes (c : Canonicalizer) : List Action → List (Except Fault String)
  | [] => []
  | .call call :: actions => (c.perform call).2 :: (c.act (.call call)).outcomes actions
  | action :: actions => (c.act action).outcomes actions

/-- The same settings without an output. -/
def buffered (c : Canonicalizer) : Canonicalizer :=
  { c with sink := none }

/-- The bytes that a call writes: those that an output without a limit receives. -/
def stream (c : Canonicalizer) (call : Call) : List UInt8 :=
  (((c.setOutput {}).perform call).1.sink.map (·.received)).getD []

/-- The bytes that the calls of a session write, each under the settings in force. -/
def streams (c : Canonicalizer) : List Action → List UInt8
  | [] => []
  | .call call :: actions => c.stream call ++ (c.act (.call call)).streams actions
  | action :: actions => (c.act action).streams actions

/-! ## One call -/

/-- What a call does is what it writes and how that ends. -/
def transcript (c : Canonicalizer) : Call → Transcript String Unit
  | .document bytes =>
    match Document.readBytes bytes ((c.limits?.map Limits.readOptions).getD {}) with
    | .ok d => c.mode.run (.document d) { limits := c.limits? }
    | .error fault => .failed fault
  | .tree d => c.mode.run (.document d) { limits := c.limits? }
  | .subtree apex inclusivePrefixes propagateDefault =>
    c.mode.run (.subtree apex) { inclusivePrefixes, propagateDefault, limits := c.limits? }
  | .nodeSet d s inclusivePrefixes =>
    c.mode.run (.nodeSet d s) { inclusivePrefixes, limits := c.limits? }

/-- Hands a transcript to the output, if there is one. -/
def finish (c : Canonicalizer) (t : Transcript String Unit) : Canonicalizer × Except Fault String :=
  match c.sink with
  | none => (c, t.result)
  | some sink =>
    match sink.deliver t with
    | (sink, .error fault) => (c.setOutput sink, .error fault)
    | (sink, .ok ()) =>
      let (sink, outcome) := sink.flush
      (c.setOutput sink, outcome.map fun () => "")

variable {c : Canonicalizer} {sink : Sink}

theorem setOutput_of_sink (has : c.sink = some sink) : c.setOutput sink = c := by
  obtain ⟨mode, _, secure, limits⟩ := c
  cases has
  rfl

/-- Where there is nothing to write, because nothing could be read, the output stays as it is. -/
theorem finish_failed (c : Canonicalizer) (fault : Fault) :
    c.finish (.failed fault) = (c, .error fault) := by
  simp only [finish]
  split
  · rfl
  · rename_i sink has
    simp only [Sink.deliver]
    rw [setOutput_of_sink has]

theorem perform_eq (c : Canonicalizer) (call : Call) :
    c.perform call = c.finish (c.transcript call) := by
  cases call with
  | document bytes =>
    simp only [perform, document, transcript]
    cases Document.readBytes bytes ((c.limits?.map Limits.readOptions).getD {}) with
    | ok d => rfl
    | error fault => exact (finish_failed c fault).symm
  | tree d => rfl
  | subtree apex inclusivePrefixes propagateDefault => rfl
  | nodeSet d s inclusivePrefixes => rfl

/-- No call fails for an output of its own accord. -/
theorem fails_transcript (c : Canonicalizer) (call : Call) :
    (c.transcript call).Fails (fun fault => ∀ failure, fault ≠ .io failure) := by
  have writes : ∀ input params,
      (c.mode.run input params).Fails (fun fault => ∀ failure, fault ≠ .io failure) := by
    intro input params fault ends failure
    cases c.mode.fails_run input params fault ends <;> exact nofun
  cases call with
  | document bytes =>
    simp only [transcript]
    cases read : Document.readBytes bytes ((c.limits?.map Limits.readOptions).getD {}) with
    | ok d => exact writes _ _
    | error fault =>
      refine FailsWith.error fun failure => ?_
      cases Document.failsWith_readBytes _ _ fault read <;> exact nofun
  | tree d => exact writes _ _
  | subtree apex inclusivePrefixes propagateDefault => exact writes _ _
  | nodeSet d s inclusivePrefixes => exact writes _ _

theorem stream_eq (c : Canonicalizer) (call : Call) :
    c.stream call = Utf8.encode (c.transcript call).text := by
  have same : (c.setOutput {}).transcript call = c.transcript call := rfl
  simp only [stream]
  rw [perform_eq, same]
  simp only [finish, setOutput]
  rw [Sink.deliver_unlimited _ rfl]
  cases (c.transcript call).outcome <;> rfl

theorem perform_buffered (c : Canonicalizer) (call : Call) :
    c.buffered.perform call = (c.buffered, (c.transcript call).result) :=
  c.buffered.perform_eq call

/-- How a call ends that writes to an output: `fits` says whether there is room for its stream,
and `own` how it ends without an output. -/
def delivered (fits failsFlush : Bool) (own : Except Fault String) : Except Fault String :=
  if fits then
    own.bind fun _ => if failsFlush then .error (.io .noFlush) else .ok ""
  else .error (.io .closed)

theorem perform_limited {capacity : Nat} (has : c.sink = some sink)
    (room : sink.capacity = some capacity) (call : Call) :
    c.perform call =
      let outcome := delivered ((c.stream call).length ≤ capacity) sink.failsFlush
        (c.buffered.perform call).2
      (c.setOutput { sink with
        capacity := some (capacity - (c.stream call).length)
        received := sink.received ++ (c.stream call).take capacity
        flushes := sink.flushes + if outcome.isOk then 1 else 0 }, outcome) := by
  rw [perform_eq, perform_buffered, stream_eq]
  simp only [finish]
  rw [has]
  dsimp only
  rw [Sink.deliver_limited _ room]
  generalize c.transcript call = t
  by_cases fits : (Utf8.encode t.text).length ≤ capacity
  · rw [if_pos fits, decide_eq_true fits]
    simp only [Transcript.result, delivered]
    cases t.outcome with
    | error fault => rfl
    | ok _ =>
      -- Everything has been delivered, and the output is flushed.
      simp only [Sink.flush]
      cases sink.failsFlush <;> rfl
  · rw [if_neg fits, decide_eq_false fits]
    rfl

/-! ## Sessions -/

/-- Without an output a call leaves nothing behind. -/
theorem act_call_buffered (c : Canonicalizer) (call : Call) :
    c.buffered.act (.call call) = c.buffered :=
  congrArg Prod.fst (c.perform_buffered call)

/-- The canonicalizer with an output that has room for `n` bytes in all, of which those in
`written` have been tried, and that was flushed so often. -/
def limitedTo (c : Canonicalizer) (n : Nat) (failsFlush : Bool) (written : List UInt8)
    (flushes : Nat) : Canonicalizer :=
  c.setOutput
    { capacity := some (n - written.length), failsFlush, received := written.take n, flushes }

theorem perform_limitedTo (c : Canonicalizer) (n : Nat) (failsFlush : Bool)
    (written : List UInt8) (flushes : Nat) (call : Call) :
    (c.limitedTo n failsFlush written flushes).perform call =
      let outcome := delivered ((c.stream call).length ≤ n - written.length) failsFlush
        (c.buffered.perform call).2
      (c.limitedTo n failsFlush (written ++ c.stream call)
        (flushes + if outcome.isOk then 1 else 0), outcome) := by
  have settings : ∀ sink : Sink, (c.setOutput sink).stream call = c.stream call := fun _ => rfl
  have own : ∀ sink : Sink, (c.setOutput sink).buffered = c.buffered := fun _ => rfl
  rw [perform_limited (c := c.limitedTo n failsFlush written flushes) rfl rfl]
  simp only [limitedTo, settings, own]
  rw [List.length_append, ← Nat.sub_sub, List.take_append]
  rfl

/-- No action gives an output to a canonicalizer without one. -/
theorem buffered_after (actions : List Action) : ∀ c : Canonicalizer,
    (c.buffered.after actions).buffered = c.buffered.after actions := by
  induction actions with
  | nil => exact fun _ => rfl
  | cons action actions ih =>
    intro c
    cases action with
    | setSecure secure => exact ih (c.setSecure secure)
    | setLimits limits => exact ih (c.setLimits limits)
    | call call =>
      simp only [after, List.foldl_cons] at ih ⊢
      rw [act_call_buffered]
      exact ih c

/-- What a session leaves behind, from a session that is under way on. -/
theorem after_limitedTo (n : Nat) (failsFlush : Bool) (actions : List Action) :
    ∀ (c : Canonicalizer) (written : List UInt8) (flushes : Nat),
    (c.limitedTo n failsFlush written flushes).after actions =
      (c.buffered.after actions).limitedTo n failsFlush (written ++ c.buffered.streams actions)
        (flushes +
          ((c.limitedTo n failsFlush written flushes).outcomes actions).countP (·.isOk)) := by
  induction actions with
  | nil =>
    intro c written flushes
    simp only [streams, List.append_nil]
    rfl
  | cons action actions ih =>
    intro c written flushes
    cases action with
    | setSecure secure => exact ih (c.setSecure secure) written flushes
    | setLimits limits => exact ih (c.setLimits limits) written flushes
    | call call =>
      have step := c.perform_limitedTo n failsFlush written flushes call
      simp only [after, outcomes, streams, List.foldl_cons] at ih ⊢
      rw [act_call_buffered]
      simp only [act]
      rw [step]
      dsimp only
      rw [ih, List.append_assoc, List.countP_cons, Nat.add_assoc]
      congr 2
      rw [Nat.add_comm]

/-- What a session leaves behind that has just been given the output. -/
theorem after_setOutput (c : Canonicalizer) (n : Nat) (failsFlush : Bool)
    (actions : List Action) :
    let sunk := c.setOutput { capacity := some n, failsFlush }
    sunk.after actions = (c.buffered.after actions).limitedTo n failsFlush
      (c.buffered.streams actions) ((sunk.outcomes actions).countP (·.isOk)) := by
  intro sunk
  have started : sunk = c.limitedTo n failsFlush [] 0 := by
    simp only [sunk, limitedTo, List.length_nil, Nat.sub_zero, List.take_nil]
  have reached := after_limitedTo n failsFlush actions c [] 0
  rw [← started, List.nil_append, Nat.zero_add] at reached
  exact reached

/-- How a call ends, told from how it ends by itself. -/
theorem delivered_cases (fits failsFlush : Bool) {own : Except Fault String}
    (fails : FailsWith (fun fault => ∀ failure, fault ≠ .io failure) own) :
    let outcome := delivered fits failsFlush own
    ((∃ failure, outcome = .error (.io failure)) ↔
        fits = false ∨ own.isOk = true ∧ failsFlush = true) ∧
      ((∀ failure, outcome ≠ .error (.io failure)) → outcome = own.map fun _ => "") ∧
      (outcome.isOk = true ↔ fits = true ∧ own.isOk = true ∧ failsFlush = false) := by
  cases fits with
  | false =>
    refine ⟨iff_of_true ⟨.closed, rfl⟩ (.inl rfl), fun other => ?_, iff_of_false nofun nofun⟩
    exact absurd rfl (other .closed)
  | true =>
    cases own with
    | error fault =>
      refine ⟨iff_of_false ?_ nofun, fun _ => rfl, iff_of_false nofun nofun⟩
      rintro ⟨failure, same⟩
      exact fails fault rfl failure (Except.error.inj same)
    | ok text =>
      cases failsFlush with
      | true =>
        refine ⟨iff_of_true ⟨.noFlush, rfl⟩ (.inr ⟨rfl, rfl⟩), fun other => ?_,
          iff_of_false nofun nofun⟩
        exact absurd rfl (other .noFlush)
      | false =>
        exact ⟨iff_of_false nofun nofun, fun _ => rfl, iff_of_true rfl ⟨rfl, rfl, rfl⟩⟩

/-- A session with an output that takes `n` bytes in all, compared to the same session without
it.  The output has the beginning of what the calls write, and was flushed after every call that
succeeded.  A further call fails for the output if what it writes does not fit, or if nothing but
the flush fails; else it ends as it does by itself.  It leaves all settings as they are. -/
theorem session_limited (c : Canonicalizer) (n : Nat) (failsFlush : Bool)
    (actions : List Action) :
    let sunk := c.setOutput { capacity := some n, failsFlush }
    let free := c.buffered.after actions
    let written := c.buffered.streams actions
    let flushes := (sunk.outcomes actions).countP (·.isOk)
    sunk.after actions = free.limitedTo n failsFlush written flushes ∧
    ∀ call,
      let own := (free.perform call).2
      let fits := (free.stream call).length ≤ n - written.length
      let (next, outcome) := (sunk.after actions).perform call
      ((∃ failure, outcome = .error (.io failure)) ↔
        ¬ fits ∨ own.isOk = true ∧ failsFlush = true) ∧
      ((∀ failure, outcome ≠ .error (.io failure)) → outcome = own.map fun _ => "") ∧
      (outcome.isOk = true ↔ fits ∧ own.isOk = true ∧ failsFlush = false) ∧
      next = free.limitedTo n failsFlush (written ++ free.stream call)
        (flushes + if outcome.isOk then 1 else 0) ∧
      (free.perform call).1 = free ∧
      ∀ text, own = .ok text → free.stream call = Utf8.encode text := by
  intro sunk free written flushes
  have state : sunk.after actions = free.limitedTo n failsFlush written flushes :=
    c.after_setOutput n failsFlush actions
  refine ⟨state, fun call => ?_⟩
  intro own fits
  have alone : free.perform call = (free, (free.transcript call).result) := by
    have alone := free.perform_buffered call
    rw [buffered_after] at alone
    exact alone
  have unchanged : (free.perform call).1 = free := congrArg Prod.fst alone
  have ends : own = (free.transcript call).result := congrArg Prod.snd alone
  have fails : FailsWith (fun fault => ∀ failure, fault ≠ .io failure) own := by
    rw [ends]
    exact FailsWith.map _ (free.fails_transcript call)
  rw [state, perform_limitedTo, buffered_after]
  obtain ⟨io, other, succeeds⟩ := delivered_cases (decide fits) failsFlush fails
  rw [decide_eq_false_iff_not] at io
  rw [decide_eq_true_eq] at succeeds
  refine ⟨io, other, succeeds, rfl, unchanged, fun text same => ?_⟩
  rw [ends] at same
  obtain ⟨_, -, rfl⟩ := except_map_eq_ok.mp same
  exact free.stream_eq call

end CanonicalXml.Canonicalizer
