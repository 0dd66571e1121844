import DiscreteMath.SetAlgebra.Evaluation

/-!
# Sessions

A session is a sequence of calls on a workspace. Every call has a reply and leaves a workspace to
the next one. A call that stores or removes a set and fails leaves the workspace as it was; an
evaluation leaves one also if it fails.
-/

namespace DiscreteMath.SetAlgebra

inductive Call where
  | addElements (name : String) (elements : List Element)
  | addLiteral (name text : String)
  | addItems (name : String) (items : List String)
  | addSymbolic (name definition : String) (rule : Datum → Option Bool) (samples : List Element)
  | remove (name : String)
  | setExplains (explains : Bool)
  | operate (operation : Operation) (a b : String)
  | evaluate (expression : String)
  | get (name : String)
  | all
  | isMember (x : Element) (name : String)

inductive Reply where
  | done
  | answer (answer : Answer)
  | answers (answers : List (String × Answer))
  | member (known : Bool)
  | evaluation (evaluation : Evaluation) (warnings : List String)
  | failed (error : SetError) (warnings : List String)

namespace Reply

def ofResult (reply : α → Reply) : Except SetError α → Reply
  | .ok value => reply value
  | .error e => failed e []

def ofOutcome (outcome : Outcome) : Reply :=
  match outcome.result with
  | .ok e => evaluation e outcome.warnings
  | .error e => failed e outcome.warnings

end Reply

namespace Workspace

def settle (w : Workspace) : Except SetError Workspace → Reply × Workspace
  | .ok next => (.done, next)
  | .error e => (.failed e [], w)

def call (execute : Executor) (w : Workspace) : Call → Reply × Workspace
  | .addElements name elements => w.settle (w.addElements name elements)
  | .addLiteral name text => w.settle (w.addLiteral name text)
  | .addItems name items => w.settle (w.addItems name items)
  | .addSymbolic name definition rule samples =>
    w.settle (w.addSymbolic name definition rule samples)
  | .remove name => w.settle (w.remove name)
  | .setExplains explains => (.done, w.setExplains explains)
  | .operate op a b =>
    match w.evaluateOperationBy execute op a b with
    | .ok (evaluation, next) => (.evaluation evaluation [], next)
    | .error e => (.failed e [], w)
  | .evaluate expression =>
    let outcome := w.evaluateBy execute expression
    (.ofOutcome outcome, outcome.workspace)
  | .get name => (.ofResult .answer (w.get name), w)
  | .all => (.answers w.all, w)
  | .isMember x name => (.ofResult .member (w.isMember x name), w)

def after (execute : Executor) (w : Workspace) : List Call → Workspace
  | [] => w
  | c :: rest => (w.call execute c).2.after execute rest

/-- What a session shows: after each call its reply and the registered sets. -/
def transcript (execute : Executor) (w : Workspace) : List Call → List (Reply × Registry)
  | [] => []
  | c :: rest =>
    let (reply, next) := w.call execute c
    (reply, next.registry) :: next.transcript execute rest

def Reaches (v w : Workspace) : Prop := ∃ calls, v.after apply calls = w

end Workspace

end DiscreteMath.SetAlgebra
