/-
  Raft.Runs — how invariants of a cluster are proved.

  One event touches one node: the host runs one operation of the core and
  drains it, compacts the log, or starts a new incarnation (`step_cases`).
  So an invariant is given by local parts: a condition on every node, on every
  message, and on the ghost state that ties them together.  `LocalInvariant`
  packages these parts with what the parts owe each other.
-/
import Flotilla.Raft.Handlers

namespace Flotilla.Raft

/-! ## What one event does. -/

namespace Cluster

/-- The core that the operation of event `e` leaves on node `n`, before the drain. -/
inductive Acts (s : Cluster) : Event → NodeId → Core → Prop
  | tick (n : NodeId) : Acts s (.tick n) n (s.nodes n).raft.tick
  | deliver (k : Nat) (m : Message) (hm : s.net[k]? = some m) :
      Acts s (.deliver k) m.to_ ((s.nodes m.to_).raft.step m)
  | propose (n : NodeId) (command : Bytes) (r : Core)
      (hr : (s.nodes n).raft.propose command = some r) : Acts s (.propose n command) n r
  | readIndex (n : NodeId) (ctx : Nat) (r : Core)
      (hctx : ctx ∉ (s.nodes n).raft.pendingReads.map PendingRead.ctx)
      (hr : (s.nodes n).raft.startReadIndex ctx = some r) : Acts s (.readIndex n ctx) n r

/-- An event runs and drains one operation, compacts, or restarts. -/
inductive Did (M : Membership) (s : Cluster) (e : Event) (n : NodeId) :
    Cluster → Output → Prop
  | op (r : Core) (hact : s.Acts e n r) : Did M s e n (s.drain n r).1 (s.drain n r).2
  | compact (applied : Nat) (data : Bytes) (saved : Bool) (he : e = .compact n applied data saved)
      (hle : applied ≤ (s.nodes n).raft.commit) :
      Did M s e n (s.setNode n (compactNode (s.nodes n) applied data saved)) ⟨n, {}⟩
  | restart (cfg : Config) (he : e = .restart n cfg) (hcfg : cfg.Valid M n) :
      Did M s e n (s.setNode n (restartNode (s.nodes n) cfg)) ⟨n, {}⟩

theorem step_cases {M : Membership} {s s' : Cluster} {e : Event} {o : Output}
    (h : s.step M e = some (s', o)) : ∃ n ∈ M.peers, Did M s e n s' o := by
  cases e <;> simp only [step] at h
  case tick n =>
    split at h
    · rename_i hn
      cases h
      exact ⟨n, hn, .op _ (.tick n)⟩
    · cases h
  case deliver k =>
    split at h
    · cases h
    · rename_i m hm
      split at h
      · rename_i hn
        cases h
        exact ⟨m.to_, hn, .op _ (.deliver k m hm)⟩
      · cases h
  case propose n command =>
    split at h
    · rename_i hn
      obtain ⟨r, hr, heq⟩ := map_eq_some_iff.mp h
      cases heq
      exact ⟨n, hn, .op r (.propose n command r hr)⟩
    · cases h
  case readIndex n ctx =>
    split at h
    · rename_i hn
      obtain ⟨r, hr, heq⟩ := map_eq_some_iff.mp h
      cases heq
      exact ⟨n, hn.1, .op r (.readIndex n ctx r hn.2 hr)⟩
    · cases h
  case compact n applied data saved =>
    split at h
    · rename_i hn
      cases h
      exact ⟨n, hn.1, .compact applied data saved rfl hn.2⟩
    · cases h
  case restart n cfg =>
    split at h
    · rename_i hn
      cases h
      exact ⟨n, hn.1, .restart cfg rfl hn.2⟩
    · cases h

theorem run_cons {M : Membership} {s s' : Cluster} {e : Event} {es : List Event}
    {os : List Output} (h : run M s (e :: es) = some (s', os)) :
    ∃ s₁ o os', s.step M e = some (s₁, o) ∧ run M s₁ es = some (s', os') ∧ os = o :: os' := by
  unfold run at h
  split at h
  · cases h
  · rename_i s₁ o hstep
    split at h
    · cases h
    · rename_i s₂ os' hrun
      cases h
      exact ⟨s₁, o, os', hstep, hrun, rfl⟩

/-- Every event of the run finds a state that `P` allows it in. -/
def Along (M : Membership) (P : Cluster → Event → Prop) : Cluster → List Event → Prop
  | _, [] => True
  | s, e :: es => P s e ∧
      match s.step M e with
      | none => True
      | some (s', _) => Along M P s' es

instance Along.decidable (M : Membership) (P : Cluster → Event → Prop)
    [hP : ∀ s e, Decidable (P s e)] : ∀ s es, Decidable (Along M P s es)
  | _, [] => inferInstanceAs (Decidable True)
  | s, e :: es =>
      @instDecidableAnd _ _ (hP s e) <|
        match s.step M e with
        | none => inferInstanceAs (Decidable True)
        | some (s', _) => Along.decidable M P s' es

theorem Along.head {M : Membership} {P : Cluster → Event → Prop} {s : Cluster} {e : Event}
    {es : List Event} (h : Along M P s (e :: es)) : P s e := h.1

theorem Along.tail {M : Membership} {P : Cluster → Event → Prop} {s s' : Cluster} {e : Event}
    {es : List Event} {o : Output} (h : Along M P s (e :: es))
    (hstep : s.step M e = some (s', o)) : Along M P s' es := by
  have htail := h.2
  rw [hstep] at htail
  exact htail

theorem compactNode_ready (nd : Node) (applied : Nat) (data : Bytes) (saved : Bool) :
    (compactNode nd applied data saved).raft.ready = nd.raft.ready := by
  unfold compactNode Core.compactTo
  split <;> rfl

@[simp] theorem setNode_nodes_self (s : Cluster) (n : NodeId) (nd : Node) :
    (s.setNode n nd).nodes n = nd := update_self ..

theorem setNode_nodes_of_ne (s : Cluster) {n q : NodeId} (nd : Node) (h : q ≠ n) :
    (s.setNode n nd).nodes q = s.nodes q := update_of_ne h ..

@[simp] theorem setNode_net (s : Cluster) (n : NodeId) (nd : Node) :
    (s.setNode n nd).net = s.net := rfl

@[simp] theorem drain_nodes_self (s : Cluster) (n : NodeId) (r : Core) :
    (s.drain n r).1.nodes n =
      ⟨(s.nodes n).storage.persist r.ready, { r with ready := {} }⟩ := update_self ..

theorem drain_nodes_of_ne (s : Cluster) {n q : NodeId} (r : Core) (h : q ≠ n) :
    (s.drain n r).1.nodes q = s.nodes q := update_of_ne h ..

@[simp] theorem drain_net (s : Cluster) (n : NodeId) (r : Core) :
    (s.drain n r).1.net = s.net ++ r.ready.messages := rfl

@[simp] theorem drain_ready (s : Cluster) (n : NodeId) (r : Core) :
    (s.drain n r).2 = ⟨n, r.ready⟩ := rfl

end Cluster

/-! ## Local invariants. -/

/-- The parts of an invariant with ghost state `Γ`.  `NodeOk` speaks about a
node in the middle of an operation, with its pending `Ready`; draining it only
moves the messages to the network. -/
structure LocalInvariant (Γ : Type) where
  /-- How the ghost state may change when a node acts. -/
  Moves : NodeId → Γ → Γ → Prop
  Global : Γ → Prop
  NodeOk : Γ → NodeId → Storage → Core → Prop
  MsgOk : Γ → Message → Prop
  node_frame : ∀ {p q γ γ' d r}, Moves p γ γ' → q ≠ p → NodeOk γ q d r → NodeOk γ' q d r
  msg_frame : ∀ {p γ γ' m}, Moves p γ γ' → MsgOk γ m → MsgOk γ' m
  drained : ∀ {p γ d r}, NodeOk γ p d r → NodeOk γ p (d.persist r.ready) { r with ready := {} }
  pending : ∀ {p γ d r}, NodeOk γ p d r → ∀ m ∈ r.ready.messages, MsgOk γ m

namespace LocalInvariant

variable {Γ : Type} (I : LocalInvariant Γ) (M : Membership)

structure Holds (γ : Γ) (s : Cluster) : Prop where
  global : I.Global γ
  node : ∀ p ∈ M.peers, I.NodeOk γ p (s.nodes p).storage (s.nodes p).raft
  rest : ∀ p ∈ M.peers, (s.nodes p).raft.ready = {}
  msg : ∀ m ∈ s.net, I.MsgOk γ m

variable {I M}

theorem Holds.drain {γ γ' : Γ} {s : Cluster} {n : NodeId} {r : Core} (h : I.Holds M γ s)
    (hmoves : I.Moves n γ γ') (hglobal : I.Global γ')
    (hnode : I.NodeOk γ' n (s.nodes n).storage r) : I.Holds M γ' (s.drain n r).1 where
  global := hglobal
  node p hp := by
    by_cases hpn : p = n
    · subst hpn
      rw [Cluster.drain_nodes_self]
      exact I.drained hnode
    · rw [Cluster.drain_nodes_of_ne s r hpn]
      exact I.node_frame hmoves hpn (h.node p hp)
  rest p hp := by
    by_cases hpn : p = n
    · subst hpn
      rw [Cluster.drain_nodes_self]
    · rw [Cluster.drain_nodes_of_ne s r hpn]
      exact h.rest p hp
  msg m hm := by
    rw [Cluster.drain_net] at hm
    rcases mem_append.mp hm with hm | hm
    · exact I.msg_frame hmoves (h.msg m hm)
    · exact I.pending hnode m hm

theorem Holds.setNode {γ : Γ} {s : Cluster} {n : NodeId} {nd : Node} (h : I.Holds M γ s)
    (hrest : nd.raft.ready = {}) (hnode : I.NodeOk γ n nd.storage nd.raft) :
    I.Holds M γ (s.setNode n nd) where
  global := h.global
  node p hp := by
    by_cases hpn : p = n
    · subst hpn
      rw [Cluster.setNode_nodes_self]
      exact hnode
    · rw [Cluster.setNode_nodes_of_ne s nd hpn]
      exact h.node p hp
  rest p hp := by
    by_cases hpn : p = n
    · subst hpn
      rw [Cluster.setNode_nodes_self]
      exact hrest
    · rw [Cluster.setNode_nodes_of_ne s nd hpn]
      exact h.rest p hp
  msg m hm := h.msg m hm

end LocalInvariant

end Flotilla.Raft
