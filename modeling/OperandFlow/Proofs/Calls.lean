import OperandFlow.Proofs.Runs

/-! Sessions as a client sees them: a row of calls, each with its answer. -/
namespace OperandFlow

/-- What a client can ask of an analysis. -/
inductive Query where
  | size
  | node (uid : NodeId)
  | report (uid : NodeId)
  | hasOpcode (uid : NodeId) (opcode : Opcode)
  | leaderChain (uid : NodeId)
  | trail (chain : List NodeId)
  | loopBounds (chain : List NodeId)
  | origins (seeds : List NodeId) (limit : Nat)
  | originsOfSlot (uid : NodeId) (slot : Nat)
  | isOrigin (uid : NodeId)
  | ancestor (uid : NodeId) (opcode : Opcode)
  | unsupplied (uid : NodeId)
  | terminals (function : String)
  | paths (function : String)
  | repetitions
  | shape (function : String)
  | fingerprint (function : String)
  | dot (function : String)
  | functions
  | sentinels (function : String)
  | anomalies
  | profile

abbrev Query.Answer : Query → Type
  | size => Nat
  | node _ => Except GraphError Node
  | report _ => Except GraphError NodeReport
  | hasOpcode _ _ | isOrigin _ => Bool
  | leaderChain _ => Except GraphError (List NodeId)
  | trail _ => Option (List NodeId)
  | loopBounds _ => Option (Option (NodeId × NodeId))
  | origins _ _ => Origins
  | originsOfSlot _ _ => Except GraphError Origins
  | ancestor _ _ => Except GraphError (Option NodeId)
  | unsupplied _ => Except GraphError (List Nat)
  | terminals _ => List NodeId
  | paths _ => Except GraphError (List (NodeId × List NodeId))
  | repetitions => Except GraphError (List Repetition)
  | shape _ => Shape
  | fingerprint _ => Fingerprint
  | dot _ => String
  | functions => List String
  | sentinels _ => Option Sentinels
  | anomalies => Array Anomaly
  | profile => Profile

abbrev Action.Answer : Action → Type
  | pre _ _ | post _ _ => Option NodeId
  | replay _ => Except ReplayError ReplaySummary
  | flush _ | reset => Unit
  | add _ | complete _ _ _ _ => Except GraphError NodeId
  | findEdges _ | remove _ => Except GraphError Unit

inductive Call where
  | action (action : Action)
  | query (query : Query)

abbrev Call.Answer : Call → Type
  | action a => a.Answer
  | query q => q.Answer

namespace Analysis

def ask (s : Analysis) : (q : Query) → q.Answer × Analysis
  | .size => (s.graph.size, s)
  | .node uid => (s.graph.node uid, s)
  | .report uid => s.report uid
  | .hasOpcode uid opcode => ((s.graph.node? uid).any (·.is opcode), s)
  | .leaderChain uid => (s.graph.leaderChain uid, s)
  | .trail chain => (s.graph.trail? chain, s)
  | .loopBounds chain => (s.loopBounds? chain, s)
  | .origins seeds limit => s.origins seeds limit
  | .originsOfSlot uid slot => s.originsOfSlot uid slot
  | .isOrigin uid => (s.graph.isOrigin uid, s)
  | .ancestor uid opcode => s.ancestor? uid opcode
  | .unsupplied uid => (s.graph.unsupplied uid, s)
  | .terminals function => (s.graph.terminals function, s)
  | .paths function => s.paths? function
  | .repetitions => (s.repetitions?, s)
  | .shape function => (s.graph.shape function, s)
  | .fingerprint function => (s.graph.fingerprint function, s)
  | .dot function => (s.graph.dot function, s)
  | .functions => (s.graph.functions, s)
  | .sentinels function => (s.graph.sentinels? function, s)
  | .anomalies => (s.journal.anomalies, s)
  | .profile => (s.journal.profile, s)

/-- What an action answers, besides what it does. -/
def act (s : Analysis) : (a : Action) → a.Answer × Analysis
  | .pre event state => s.onPre event state
  | .post event state => s.onPost event state
  | .replay trace => s.replay trace
  | .flush function => ((), s.flush function)
  | .add arrival => s.add arrival
  | .complete function opcode result state => s.complete function opcode result state
  | .findEdges uid => s.findEdges uid
  | .remove uid => s.remove uid
  | .reset => ((), s.reset)

def call (s : Analysis) : (c : Call) → c.Answer × Analysis
  | .action a => s.act a
  | .query q => s.ask q

/-- Makes the calls one after the other, and gathers the answers. -/
def run (s : Analysis) : List Call → List (Sigma Call.Answer) × Analysis
  | [] => ([], s)
  | c :: calls =>
    let (answer, s) := s.call c
    let (answers, s) := s.run calls
    (⟨c, answer⟩ :: answers, s)

theorem act_eq_perform (s : Analysis) (a : Action) : (s.act a).2 = s.perform a := by
  cases a <;> rfl

/-- Questions leave the graph as it is. -/
theorem graph_ask (s : Analysis) (q : Query) : (s.ask q).2.graph = s.graph := by
  cases q <;> rfl

theorem host_ask (s : Analysis) (q : Query) : (s.ask q).2.host = s.host := by
  cases q <;> rfl

/-- What holds of the empty graph and is kept by each move holds after any calls. -/
theorem run_induction {P : Graph → Prop} (host : Host) (hempty : P .empty)
    (step : ∀ g g', g.Consistent → P g → g.Moves host g' → P g') (calls : List Call) :
    P ((start host).run calls).2.graph := by
  have key : ∀ s : Analysis, s.host = host → s.graph.Consistent → P s.graph →
      P (s.run calls).2.graph := by
    induction calls with
    | nil => exact fun _ _ _ hP => hP
    | cons c calls ih =>
      intro s hhost hs hP
      cases c with
      | action a =>
        have hact := s.act_eq_perform a
        by_cases h : a = .reset
        · subst h
          exact ih s.reset hhost Graph.consistent_empty hempty
        · obtain ⟨hnext, hP⟩ :=
            hs.becomes_induction (hhost ▸ becomes_perform hs.causal h) hP step
          exact ih (s.act a).2 (hact ▸ (s.host_perform a).trans hhost) (hact ▸ hnext) (hact ▸ hP)
      | query q =>
        have hgraph := s.graph_ask q
        exact ih (s.ask q).2 ((s.host_ask q).trans hhost) (hgraph ▸ hs) (hgraph ▸ hP)
  exact key (start host) rfl Graph.consistent_empty hempty

end Analysis
end OperandFlow
