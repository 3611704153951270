/-
  Lib.Linearizability — linearizable histories of a sequential object.

  A history lists invocations and replies of operations in the order in which
  they happened.  It is linearizable if some of its operations, each once and
  every one that was replied to among them, can be put in a sequence in which the
  object gives the replies of the history, and in which no operation stands
  before one that had been replied to when it was invoked.

  `Points` is the rule by which that is proved: every try of an operation has a
  point in time at which it acts on the object.  Tries may be dropped afterwards
  if they left the object as it was, so that an operation may be tried again and
  only its last try counts.
-/
import Flotilla.Lib.Positions

namespace Flotilla.Linearizability

structure Object (State Op Res : Type) where
  init : State
  apply : State → Op → State × Res

inductive Act (Op Res : Type) where
  | invoke (id : Nat) (op : Op)
  | reply (id : Nat) (res : Res)
  deriving DecidableEq

/-- An operation in a sequence, with the result that it has there. -/
structure Step (Op Res : Type) where
  id : Nat
  op : Op
  res : Res

variable {State Op Res : Type}

/-! ## Linearizations. -/

/-- The results are those of the object. -/
def Object.Legal (O : Object State Op Res) : State → List (Step Op Res) → Prop
  | _, [] => True
  | s, x :: xs => (O.apply s x.op).2 = x.res ∧ O.Legal (O.apply s x.op).1 xs

def Object.run (O : Object State Op Res) (s : State) (xs : List (Step Op Res)) : State :=
  xs.foldl (fun s x => (O.apply s x.op).1) s

/-- Operation `a` is replied to before operation `b` is invoked. -/
def Precedes (h : List (Act Op Res)) (a b : Nat) : Prop :=
  ∃ (p q : Nat) (res : Res) (op : Op), p < q ∧ h[p]? = some (Act.reply a res) ∧
    h[q]? = some (Act.invoke b op)

structure Linearization (O : Object State Op Res) (h : List (Act Op Res))
    (xs : List (Step Op Res)) : Prop where
  once : (xs.map Step.id).Nodup
  invoked : ∀ x ∈ xs, Act.invoke x.id x.op ∈ h
  replied : ∀ {id res}, Act.reply id res ∈ h → ∃ x ∈ xs, x.id = id ∧ x.res = res
  legal : O.Legal O.init xs
  order : xs.Pairwise (fun x y => ¬ Precedes h y.id x.id)

def Linearizable (O : Object State Op Res) (h : List (Act Op Res)) : Prop :=
  ∃ xs, Linearization O h xs

theorem Object.legal_concat (O : Object State Op Res) {s : State} {xs : List (Step Op Res)}
    (h : O.Legal s xs) {x : Step Op Res} (hx : (O.apply (O.run s xs) x.op).2 = x.res) :
    O.Legal s (xs ++ [x]) := by
  induction xs generalizing s with
  | nil => exact ⟨hx, trivial⟩
  | cons y xs ih => exact ⟨h.1, ih h.2 hx⟩

theorem Object.run_concat (O : Object State Op Res) (s : State) (xs : List (Step Op Res))
    (x : Step Op Res) : O.run s (xs ++ [x]) = (O.apply (O.run s xs) x.op).1 := by
  unfold Object.run
  rw [List.foldl_append]
  rfl

/-! ## Points. -/

/-- One try of an operation, and how long the history was when it acted. -/
structure Point (Op Res : Type) where
  step : Step Op Res
  attempt : Nat
  time : Nat

theorem Object.legal_filter (O : Object State Op Res) {s : State} {pts : List (Point Op Res)}
    {keep : Point Op Res → Bool} (h : O.Legal s (pts.map Point.step))
    (hpure : ∀ x ∈ pts, keep x = false → ∀ s, (O.apply s x.step.op).1 = s) :
    O.Legal s ((pts.filter keep).map Point.step) := by
  induction pts generalizing s with
  | nil => exact h
  | cons x pts ih =>
    have hrest := ih h.2 (fun y hy => hpure y (List.mem_cons_of_mem x hy))
    cases hx : keep x with
    | true =>
      rw [List.filter_cons_of_pos hx]
      exact ⟨h.1, hrest⟩
    | false =>
      rw [List.filter_cons_of_neg (by rw [hx]; exact Bool.false_ne_true)]
      rw [hpure x List.mem_cons_self hx] at hrest
      exact hrest

/-- Every point lies between the invocation and the reply of its operation. -/
structure Points (O : Object State Op Res) (h : List (Act Op Res))
    (pts : List (Point Op Res)) : Prop where
  legal : O.Legal O.init (pts.map Point.step)
  sorted : pts.Pairwise (fun x y => x.time ≤ y.time)
  bound : ∀ x ∈ pts, x.time ≤ h.length
  invoked : ∀ x ∈ pts, Act.invoke x.step.id x.step.op ∈ h
  after : ∀ x ∈ pts, ∀ q op, h[q]? = some (.invoke x.step.id op) → q < x.time
  before : ∀ x ∈ pts, ∀ p res, h[p]? = some (.reply x.step.id res) → x.time ≤ p

variable {O : Object State Op Res} {h : List (Act Op Res)} {pts : List (Point Op Res)}

theorem Points.empty : Points O h ([] : List (Point Op Res)) where
  legal := trivial
  sorted := .nil
  bound := nofun
  invoked := nofun
  after := nofun
  before := nofun

theorem Points.concat (hpts : Points O h pts) {a : Act Op Res}
    (hnew : ∀ x ∈ pts, ∀ op, a ≠ .invoke x.step.id op) : Points O (h ++ [a]) pts where
  legal := hpts.legal
  sorted := hpts.sorted
  bound := fun x hx => by
    have := hpts.bound x hx
    rw [List.length_append]
    omega
  invoked := fun x hx => List.mem_append_left _ (hpts.invoked x hx)
  after := by
    intro x hx q op hq
    rcases getElem?_concat_cases hq with hq | ⟨_, heq⟩
    · exact hpts.after x hx q op hq
    · exact absurd heq.symm (hnew x hx op)
  before := by
    intro x hx p res hp
    rcases getElem?_concat_cases hp with hp | ⟨rfl, _⟩
    · exact hpts.before x hx p res hp
    · exact hpts.bound x hx

theorem Points.invoke (hpts : Points O h pts) {id : Nat} (op : Op)
    (hnew : ∀ x ∈ pts, x.step.id ≠ id) : Points O (h ++ [.invoke id op]) pts :=
  hpts.concat fun x hx _ heq => hnew x hx (Act.invoke.inj heq).1.symm

theorem Points.reply (hpts : Points O h pts) (id : Nat) (res : Res) :
    Points O (h ++ [.reply id res]) pts := hpts.concat fun _ _ _ => nofun

theorem Points.add (hpts : Points O h pts) {id : Nat} {op : Op} (hinvoked : Act.invoke id op ∈ h)
    (hopen : ∀ res, Act.reply id res ∉ h) (attempt : Nat) :
    Points O h (pts ++ [⟨⟨id, op, (O.apply (O.run O.init (pts.map Point.step)) op).2⟩, attempt,
      h.length⟩]) := by
  have hcases : ∀ {P : Point Op Res → Prop} {x : Point Op Res}, (∀ y ∈ pts, P y) → P x →
      ∀ y ∈ pts ++ [x], P y := by
    intro P x hold hx y hy
    rcases List.mem_append.mp hy with hy | hy
    · exact hold y hy
    · rw [List.mem_singleton.mp hy]
      exact hx
  refine ⟨?_, ?_, hcases hpts.bound le_rfl, hcases hpts.invoked hinvoked,
    hcases hpts.after ?_, hcases hpts.before ?_⟩
  · rw [List.map_append]
    exact O.legal_concat hpts.legal rfl
  · refine List.pairwise_append.mpr ⟨hpts.sorted, List.pairwise_singleton _ _, ?_⟩
    intro x hx y hy
    rw [List.mem_singleton.mp hy]
    exact hpts.bound x hx
  · intro q op' hq
    exact (List.getElem?_eq_some_iff.mp hq).1
  · intro p res hp
    exact absurd (List.mem_of_getElem? hp) (hopen res)

theorem Points.linearizable (hpts : Points O h pts) (keep : Point Op Res → Bool)
    (hpure : ∀ x ∈ pts, keep x = false → ∀ s, (O.apply s x.step.op).1 = s)
    (honce : (pts.filter keep).Pairwise (fun x y => x.step.id ≠ y.step.id))
    (hreplied : ∀ {id res}, Act.reply id res ∈ h →
      ∃ x ∈ pts, keep x = true ∧ x.step.id = id ∧ x.step.res = res) : Linearizable O h := by
  refine ⟨(pts.filter keep).map Point.step, ?_, ?_, ?_, O.legal_filter hpts.legal hpure, ?_⟩
  · rw [List.map_map]
    exact List.pairwise_map.mpr honce
  · intro x hx
    obtain ⟨y, hy, rfl⟩ := List.mem_map.mp hx
    exact hpts.invoked y (List.mem_of_mem_filter hy)
  · intro id res hmem
    obtain ⟨x, hx, hkeep, hid, hres⟩ := hreplied hmem
    exact ⟨x.step, List.mem_map.mpr ⟨x, List.mem_filter.mpr ⟨hx, hkeep⟩, rfl⟩, hid, hres⟩
  · -- an operation that was replied to acted before that, and one invoked later acts later
    apply List.pairwise_map.mpr
    refine (hpts.sorted.filter keep).imp_of_mem ?_
    rintro x y hx hy hle ⟨p, q, res, op, hlt, hp, hq⟩
    have hy := hpts.before y (List.mem_of_mem_filter hy) p res hp
    have hx := hpts.after x (List.mem_of_mem_filter hx) q op hq
    omega

end Flotilla.Linearizability
