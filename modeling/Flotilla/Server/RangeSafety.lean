/-
  Server.RangeSafety — every orderly run of a cluster keeps the
  commands of a group inside its range.
-/
import Flotilla.Server.Splits

namespace Flotilla.Server

open Flotilla.Txn (Key)

/-! ## Orderly events. -/

section

variable {s s' : Cluster}

theorem freshChild_of_orderly {e : Event} (h : orderly s e = true) : freshChild s e = true := by
  cases e with
  | appendSplit i => exact h
  | route _ _ | allocate _ | append _ _ | lead _ _ | applyBegin _ _ | applyEnd _ _ => rfl

theorem Command.key_of_accepted {cmd : Command} {k key : Key} (haccept : cmd.accepted k = true)
    (hkey : cmd.key? = some key) : key = k := by
  cases cmd with
  | put _ _ =>
    cases hkey
    exact of_decide_eq_true (Bool.and_eq_true_iff.mp haccept).1
  | delete _ =>
    cases hkey
    exact of_decide_eq_true (Bool.and_eq_true_iff.mp haccept).1
  | txn _ => exact Option.some.inj (hkey.symm.trans (of_decide_eq_true haccept))
  | noop | split _ _ | tsTick => cases hkey

theorem RangesOk.contains_of_orderly (h : RangesOk s) {i : Nat} {r : Routed} {cmd : Command}
    (hr : s.routed[i]? = some r) (haccept : cmd.accepted r.key = true)
    (horder : orderly s (.append i cmd) = true) {d : RangeDesc} (hd : s.birth r.group = some d)
    {key : Key} (hkey : cmd.key? = some key) : (rangeAfter d (s.log r.group)).Contains key := by
  obtain ⟨d', hd', _, hin⟩ := h.routed r (mem_of_getElem? hr)
  cases hd'.symm.trans hd
  unfold orderly at horder
  dsimp only at horder
  rw [hr, hkey] at horder
  rw [Command.key_of_accepted haccept hkey, ← take_append_drop r.seen (s.log r.group),
    rangeAfter_append]
  refine contains_rangeAfter hin ?_
  rintro entry hmem c x rfl
  have := all_eq_true.mp horder _ hmem
  simpa using this

/-- An orderly event appends no write outside the range of its group. -/
theorem KeysOk.step (hkeys : KeysOk s.birth s.log) (h : RangesOk s) {e : Event}
    (horder : orderly s e = true) (hmove : Moves s e s') : KeysOk s'.birth s'.log := by
  cases hmove with
  | route _ _ | allocate _ | applyBegin _ _ _ | applyEnd _ _ => exact hkeys
  | @append i r cmd hr haccept =>
    obtain ⟨d, hd, _⟩ := h.routed r (mem_of_getElem? hr)
    rw [s.log_push, Cluster.birth_push_of_not_split (Command.not_split_of_accepted haccept)]
    exact hkeys.grow h.logs id hd (fun key hkey => h.contains_of_orderly hr haccept horder hd hkey)
  | @lead node group g hg =>
    obtain ⟨d, hd, _⟩ := (h.node _).group hg
    rw [s.log_push, Cluster.birth_push_of_not_split (fun c x heq => by cases heq)]
    exact hkeys.grow h.logs id hd nofun
  | @appendSplit i p hp =>
    obtain ⟨hroot, hunused⟩ := fresh_of_freshChild hp (freshChild_of_orderly horder)
    obtain ⟨d, hd⟩ := ne_none_iff_exists'.mp (h.pending p (mem_of_getElem? hp))
    rw [s.log_push, Cluster.birth_push_split hd]
    exact hkeys.grow h.logs (h.logs.spawnBirth_keeps hroot hunused) hd nofun

end

/-! ## Runs. -/

section

variable {es : List Event} {s : Cluster} (hrun : Machine.run Cluster.step {} es = some s)
  (horder : Machine.Along Cluster.step (fun s e => orderly s e = true) {} es)

include hrun horder

theorem RangesOk.run_orderly : RangesOk s ∧ KeysOk s.birth s.log := by
  refine Machine.run_induction (I := fun s => RangesOk s ∧ KeysOk s.birth s.log) ?_
    ⟨.boot, ?_⟩ horder hrun
  · rintro s e s' ⟨h, hkeys⟩ hord hstep
    have hmove := Cluster.moves_of_step hstep
    exact ⟨h.step (freshChild_of_orderly hord) hmove, hkeys.step h hord hmove⟩
  · intro i a d cmd key _ ha
    cases ha

end

/-- After its entry `a`, the log splits at or below the key, and writes the key no more. -/
def HandsOver (log : List Command) (a : Nat) (key : Key) : Prop :=
  ∃ (a' c : Nat) (x : Key), a < a' ∧ log[a']? = some (Command.split c x) ∧ x ≤ key ∧
    ∀ (b : Nat) (cmd : Command), a' < b → log[b]? = some cmd → cmd.key? ≠ some key

theorem KeysOk.lost {birth : Nat → Option RangeDesc} {log : Nat → List Command}
    (h : KeysOk birth log) {i a : Nat} {d : RangeDesc} {cmd : Command} {key : Key}
    (hd : birth i = some d) (ha : (log i)[a]? = some cmd) (hkey : cmd.key? = some key)
    (hlost : ¬ (rangeAfter d (log i)).Contains key) :
    HandsOver (log i) a key := by
  have hin := h i a d cmd key hd ha hkey
  have hrest : ¬ (rangeAfter (rangeAfter d ((log i).take a)) ((log i).drop a)).Contains key := by
    rw [← rangeAfter_append, take_append_drop]
    exact hlost
  obtain ⟨k, c, x, hk, hle, _, hout⟩ := exists_split_of_lost hin hrest
  rw [getElem?_drop] at hk
  have hne : k ≠ 0 := by
    rintro rfl
    rw [Nat.add_zero, ha] at hk
    cases hk
    cases hkey
  refine ⟨a + k, c, x, by omega, hk, hle, fun b cmd' hb hentry hkey' => hout ?_⟩
  -- a later write would still find the key in the range after the split
  have hlater := h i b d cmd' key hd hentry hkey'
  obtain ⟨m, rfl⟩ : ∃ m, b = a + (k + 1) + m := ⟨b - (a + (k + 1)), by omega⟩
  rw [take_add, take_add, rangeAfter_append, rangeAfter_append] at hlater
  exact contains_of_rangeAfter hlater

/-- **A group writes only inside its range**: along every orderly run, a group about to apply a
command finds its key in `range_`; and of two groups with commands on one key, one hands the key
over. -/
theorem writes_stay_in_range {es : List Event} {s : Cluster}
    (hrun : Machine.run Cluster.step {} es = some s)
    (horder : Machine.Along Cluster.step (fun s e => orderly s e = true) {} es) :
    (∀ (node i : Nat) (g : Group) (cmd : Command) (key : Key),
      (s.nodes node).groups.lookup i = some g → g.applying = false →
      (s.log i)[g.appliedIndex]? = some cmd → cmd.key? = some key → g.range.Contains key) ∧
    (∀ (i j a b : Nat) (cmd cmd' : Command) (key : Key), i ≠ j → (s.log i)[a]? = some cmd →
      (s.log j)[b]? = some cmd' → cmd.key? = some key → cmd'.key? = some key →
      HandsOver (s.log i) a key ∨ HandsOver (s.log j) b key) := by
  obtain ⟨h, hkeys⟩ := RangesOk.run_orderly hrun horder
  have hborn : ∀ {i a : Nat} {cmd : Command}, (s.log i)[a]? = some cmd →
      ∃ d, s.birth i = some d := by
    intro i a cmd ha
    apply ne_none_iff_exists'.mp
    apply h.logs.known
    intro hnil
    rw [hnil] at ha
    cases ha
  constructor
  · intro node i g cmd key hg hidle hentry hkey
    obtain ⟨d, hd, hok⟩ := (h.node node).group hg
    have hrange : g.range = rangeAfter d ((s.log i).take g.appliedIndex) := by
      have := hok.routed
      unfold Group.routed at this
      rw [hok.idle hidle] at this
      exact this
    rw [hrange]
    exact hkeys i _ d cmd key hd hentry hkey
  · intro i j a b cmd cmd' key hij ha hb hkey hkey'
    obtain ⟨d, hd⟩ := hborn ha
    obtain ⟨e, he⟩ := hborn hb
    -- the key is in one of the two ranges now, at most
    by_cases hin : (rangeAfter d (s.log i)).Contains key
    · right
      apply hkeys.lost he hb hkey'
      exact fun hin' => hij (h.logs.apart hd he hin hin')
    · left
      exact hkeys.lost hd ha hkey hin

/-- A write of "z", a split at "m", and a write of "z" through the child. -/
def splitInOrder : List Event :=
  [.route 0 [122], .append 0 (.put [122] [1]), .route 0 [109], .allocate 1, .appendSplit 0,
    .applyBegin 0 1, .applyEnd 0 1, .applyBegin 0 1, .applyEnd 0 1, .route 0 [122],
    .append 2 (.delete [122])]

theorem writes_stay_in_range_split :
    ∃ s g, Machine.run Cluster.step {} splitInOrder = some s ∧
      Machine.Along Cluster.step (fun s e => orderly s e = true) {} splitInOrder ∧
      (s.nodes 0).groups.lookup 2 = some g ∧ g.range.Contains [122] ∧
      (HandsOver (s.log 1) 0 [122] ∨ HandsOver (s.log 2) 0 [122]) := by
  have horder : Machine.Along Cluster.step (fun s e => orderly s e = true) {} splitInOrder := by
    decide +kernel
  obtain ⟨s, hrun, ⟨g, hg, happlying, happlied⟩, ⟨cmd, hcmd, hkey⟩, cmd', hcmd', hkey'⟩ : ∃ s,
      Machine.run Cluster.step {} splitInOrder = some s ∧
        (∃ g, (s.nodes 0).groups.lookup 2 = some g ∧ g.applying = false ∧ g.appliedIndex = 0) ∧
        (∃ cmd, (s.log 1)[0]? = some cmd ∧ cmd.key? = some [122]) ∧
        ∃ cmd, (s.log 2)[0]? = some cmd ∧ cmd.key? = some [122] := by decide +kernel
  obtain ⟨hinside, hhand⟩ := writes_stay_in_range hrun horder
  refine ⟨s, g, hrun, horder, hg, ?_, hhand 1 2 0 0 cmd cmd' [122] (by decide) hcmd hcmd' hkey hkey'⟩
  exact hinside 0 2 g cmd' [122] hg happlying (by rw [happlied]; exact hcmd') hkey'

/-- The write of "z" is routed before the split at "m" and appended after it. -/
def lateWrite : List Event :=
  [.route 0 [122], .route 0 [109], .allocate 1, .appendSplit 0, .append 0 (.put [122] [1]),
    .applyBegin 0 1, .applyEnd 0 1]

/-- The group applies the late write with `range_` ending at "m". -/
theorem write_after_split :
    ∃ s g cmd, Machine.run Cluster.step {} lateWrite = some s ∧
      (s.nodes 0).groups.lookup 1 = some g ∧ g.applying = false ∧
      (s.log 1)[g.appliedIndex]? = some cmd ∧ cmd.key? = some [122] ∧
      ¬ g.range.Contains [122] := by
  obtain ⟨s, hrun, g, hg, hidle, hout, cmd, hcmd, hkey⟩ : ∃ s,
      Machine.run Cluster.step {} lateWrite = some s ∧
        ∃ g, (s.nodes 0).groups.lookup 1 = some g ∧ g.applying = false ∧ ¬ g.range.Contains [122] ∧
          ∃ cmd, (s.log 1)[g.appliedIndex]? = some cmd ∧ cmd.key? = some [122] := by decide +kernel
  exact ⟨s, g, cmd, hrun, hg, hidle, hcmd, hkey, hout⟩

end Flotilla.Server
