import Mathlib.Algebra.Order.AbsoluteValue.Basic
import Mathlib.Tactic.Linarith
import Starter.Methods

/-!
The statistics of a process (`lib/stats.c`): nine entries, whose setters emit "changed" when a
value moves by a threshold. A setter compares with what is stored and stores in any case, so
what the last "changed" has shown may be left behind step by step; how far is bounded by the
number of steps.
-/
namespace Starter.Statistics
open Gdouble Methods Lib.Runs

/-- The entries of `STStats`. -/
inductive Metric
  | vmsize
  | vmrss
  | vmswap
  | ioRead
  | ioWrite
  | priority
  | threads
  | icswitch
  | cpu
deriving DecidableEq

inductive Component
  | min
  | max
  | last
deriving DecidableEq

section
variable {α : Type}

/-- The nine getters `st_stats_get_vmsize` and so on. -/
def entry (self : Stats α) : Metric → StatsEntry α
  | .vmsize => self.vmsize
  | .vmrss => self.vmrss
  | .vmswap => self.vmswap
  | .ioRead => self.ioRead
  | .ioWrite => self.ioWrite
  | .priority => self.priority
  | .threads => self.threads
  | .icswitch => self.icswitch
  | .cpu => self.cpu

def component (entry : StatsEntry α) : Component → α
  | .min => entry.min
  | .max => entry.max
  | .last => entry.last

/-- `memcpy (&self->vmsize, v, sizeof (STStatsEntry))` and so on. -/
def withEntry (self : Stats α) (v : StatsEntry α) : Metric → Stats α
  | .vmsize => { self with vmsize := v }
  | .vmrss => { self with vmrss := v }
  | .vmswap => { self with vmswap := v }
  | .ioRead => { self with ioRead := v }
  | .ioWrite => { self with ioWrite := v }
  | .priority => { self with priority := v }
  | .threads => { self with threads := v }
  | .icswitch => { self with icswitch := v }
  | .cpu => { self with cpu := v }

/-- The values that `st_stats_set_full` is given, some of them `NULL`. -/
structure Given (α : Type) where
  name : Option String
  entries : Metric → Option (StatsEntry α)

/-- A statistics object after a setter, and whether "changed" was emitted for it. -/
structure Outcome (α : Type) where
  self : Stats α
  changed : Bool

variable [Gdouble α]

/-- `VMSIZE_TH` and so on. -/
def threshold : Metric → α
  | .vmsize | .vmrss | .vmswap | .ioRead | .ioWrite | .priority | .threads | .icswitch | .cpu => one

/-- `entry_diff`. -/
def entryDiff (oe ne : StatsEntry α) (th : α) : Bool :=
  le th (abs (sub oe.min ne.min)) || le th (abs (sub oe.max ne.max)) || le th (abs (sub oe.last ne.last))

/-- The setter of one entry. -/
def stStatsSet (m : Metric) (self : Stats α) (v : StatsEntry α) : Outcome α :=
  ⟨withEntry self v m,entryDiff (entry self m) v (threshold m)⟩

def stStatsSetVmsize : Stats α → StatsEntry α → Outcome α := stStatsSet .vmsize
def stStatsSetVmrss : Stats α → StatsEntry α → Outcome α := stStatsSet .vmrss
def stStatsSetVmswap : Stats α → StatsEntry α → Outcome α := stStatsSet .vmswap
def stStatsSetIoRead : Stats α → StatsEntry α → Outcome α := stStatsSet .ioRead
def stStatsSetIoWrite : Stats α → StatsEntry α → Outcome α := stStatsSet .ioWrite
def stStatsSetPriority : Stats α → StatsEntry α → Outcome α := stStatsSet .priority
def stStatsSetThreads : Stats α → StatsEntry α → Outcome α := stStatsSet .threads
def stStatsSetIcswitch : Stats α → StatsEntry α → Outcome α := stStatsSet .icswitch
def stStatsSetCpu : Stats α → StatsEntry α → Outcome α := stStatsSet .cpu

/-- `st_stats_set_name`. -/
def stStatsSetName (self : Stats α) (v : String) : Outcome α := ⟨{ self with name := v },self.name != v⟩

/-- The entry that `st_stats_set_full` stores. -/
def stored (self : Stats α) (given : Given α) (m : Metric) : StatsEntry α := (given.entries m).getD (entry self m)

/-- Whether `st_stats_set_full` counts the entry as changed. -/
def counted (self : Stats α) (given : Given α) (m : Metric) : Bool :=
  (given.entries m).any fun v => entryDiff (entry self m) v (threshold m)

/-- `st_stats_set_full`: each entry that is given is compared and stored, and one "changed" is
    emitted when the count is not zero. -/
def stStatsSetFull (self : Stats α) (given : Given α) : Outcome α :=
  ⟨⟨given.name.getD self.name,stored self given .vmsize,stored self given .vmrss,stored self given .vmswap,
      stored self given .ioRead,stored self given .ioWrite,stored self given .priority,stored self given .threads,
      stored self given .icswitch,stored self given .cpu⟩,
    (given.name.any fun name => self.name != name) ||
      ([.vmsize,.vmrss,.vmswap,.ioRead,.ioWrite,.priority,.threads,.icswitch,.cpu] : List Metric).any (counted self given)⟩

/-- A call of a setter. -/
inductive Call (α : Type)
  | name (v : String)
  | entry (m : Metric) (v : StatsEntry α)
  | full (given : Given α)

def Call.outcome (self : Stats α) : Call α → Outcome α
  | .name v => stStatsSetName self v
  | .entry m v => stStatsSet m self v
  | .full given => stStatsSetFull self given

/-- Whether the call gives a value for the entry. -/
def Call.stores (call : Call α) (m : Metric) : Bool :=
  match call with
  | .name _ => false
  | .entry other _ => other == m
  | .full given => (given.entries m).isSome

/-- Statistics with what the last "changed" has shown of them, or their construction, and with
    the number of times that each entry has been stored since. -/
structure Shown (α : Type) where
  self : Stats α
  shown : Stats α
  silent : Metric → Nat

def step (s : Shown α) (call : Call α) : Option (Shown α) :=
  some <|
    if (call.outcome s.self).changed then ⟨(call.outcome s.self).self,(call.outcome s.self).self,fun _ => 0⟩
    else ⟨(call.outcome s.self).self,s.shown,fun m => if call.stores m then s.silent m + 1 else s.silent m⟩

/-- Statistics that have just been made. -/
def constructed (self : Stats α) : Shown α := ⟨self,self,fun _ => 0⟩

omit [Gdouble α] in
theorem entry_withEntry (self : Stats α) (v : StatsEntry α) (m other : Metric) :
    entry (withEntry self v m) other = if other = m then v else entry self other := by
  cases m <;> cases other <;> rfl

theorem entry_stStatsSetFull (self : Stats α) (given : Given α) (m : Metric) :
    entry (stStatsSetFull self given).self m = stored self given m := by
  cases m <;> rfl

theorem stStatsSetFull_quiet {self : Stats α} {given : Given α} (quiet : (stStatsSetFull self given).changed = false)
    (m : Metric) : counted self given m = false := by
  simp only [stStatsSetFull,Bool.or_eq_false_iff] at quiet
  refine Bool.eq_false_iff.mpr fun counts => Bool.eq_false_iff.mp quiet.2 ?_
  exact List.any_eq_true.mpr ⟨m,by cases m <;> simp,counts⟩

/-- A call that emits nothing leaves an entry, or stores one that differs by less than the
    thresholds. -/
theorem outcome_quiet {self : Stats α} {call : Call α} (quiet : (call.outcome self).changed = false) (m : Metric) :
    (call.stores m = false ∧ entry (call.outcome self).self m = entry self m) ∨
      (call.stores m = true ∧ entryDiff (entry self m) (entry (call.outcome self).self m) (threshold m) = false) := by
  cases call with
  | name v => exact .inl ⟨rfl,by cases m <;> rfl⟩
  | entry other v =>
    by_cases same : other = m
    · subst same
      refine .inr ⟨by simp [Call.stores],?_⟩
      simpa [Call.outcome,stStatsSet,entry_withEntry] using quiet
    · refine .inl ⟨by simp [Call.stores,same],?_⟩
      simp [Call.outcome,stStatsSet,entry_withEntry,Ne.symm same]
  | full given =>
    have still := stStatsSetFull_quiet quiet m
    simp only [Call.outcome,entry_stStatsSetFull,Call.stores,stored]
    simp only [counted] at still
    cases there : given.entries m with
    | none => exact .inl ⟨rfl,rfl⟩
    | some v =>
      rw [there] at still
      exact .inr ⟨rfl,still⟩

end

/-- Every component differs by less than its threshold from what was shown last. -/
def Fresh (s : Shown ℚ) : Prop :=
  ∀ m c, |component (entry s.self m) c - component (entry s.shown m) c| < threshold m

/-- A component that has not been stored since is what was shown; one that has been stored
    silently differs by less than that many thresholds. -/
def Bounded (s : Shown ℚ) : Prop :=
  ∀ m c, (s.silent m = 0 → component (entry s.self m) c = component (entry s.shown m) c) ∧
    (0 < s.silent m → |component (entry s.self m) c - component (entry s.shown m) c| < s.silent m * threshold m)

theorem entryDiff_false {oe ne : StatsEntry ℚ} {th : ℚ} (near : entryDiff oe ne th = false) (c : Component) :
    |component oe c - component ne c| < th := by
  have magnitude : ∀ x : ℚ, Gdouble.abs x = |x| := by
    intro x
    by_cases negative : x < 0
    · simp [Gdouble.abs,Gdouble.lt,Gdouble.neg,Gdouble.zero,Gdouble.ofRat,negative,abs_of_neg negative]
    · simp [Gdouble.abs,Gdouble.lt,Gdouble.zero,Gdouble.ofRat,negative,abs_of_nonneg (not_lt.mp negative)]
  simp only [entryDiff,magnitude,Gdouble.le,Gdouble.sub,Bool.or_eq_false_iff,decide_eq_false_iff_not,not_le] at near
  cases c with
  | min => exact near.1.1
  | max => exact near.1.2
  | last => exact near.2

theorem bounded_step {s next : Shown ℚ} {call : Call ℚ} (bounded : Bounded s) (stepped : step s call = some next) :
    Bounded next := by
  cases stepped
  intro m c
  split
  next => exact ⟨fun _ => rfl,fun some => absurd some (Nat.lt_irrefl 0)⟩
  next quiet =>
    obtain ⟨still,moved⟩ := bounded m c
    rcases outcome_quiet (Bool.eq_false_iff.mpr quiet) m with ⟨leaves,same⟩ | ⟨stores,near⟩
    · simp only [leaves,same]
      exact ⟨still,moved⟩
    · simp only [stores,if_true]
      refine ⟨fun none => absurd none (Nat.succ_ne_zero _),fun _ => ?_⟩
      have moves := entryDiff_false near c
      rw [abs_sub_comm] at moves
      rcases Nat.eq_zero_or_pos (s.silent m) with none | some
      · rw [none,← still none]
        simpa using moves
      · have before := moved some
        have triangle := abs_sub_le (component (entry (call.outcome s.self).self m) c) (component (entry s.self m) c)
          (component (entry s.shown m) c)
        push_cast
        linarith

/-- All along a sequence of calls a component is as far from what the last "changed" has shown
    as the number of its silent stores since allows. -/
theorem run_bounded (self : Stats ℚ) (calls : List (Call ℚ)) : Always step Bounded (constructed self) calls :=
  always_of_step (fun _ _ _ bounded stepped => bounded_step bounded stepped)
    (fun _ _ => ⟨fun _ => rfl,fun some => absurd some (Nat.lt_irrefl 0)⟩) calls

private def idle : StatsEntry ℚ := ⟨10,50,30⟩

private def idleStats : Stats ℚ := ⟨"core",idle,idle,idle,idle,idle,idle,idle,idle,idle⟩

/-- Two steps of a half are not shown. -/
theorem two_halves_unshown :
    ¬ Always step Fresh (constructed idleStats) [.entry .cpu ⟨10,50,61 / 2⟩,.entry .cpu ⟨10,50,31⟩] := by
  intro always
  have ends : ∃ last,
      run step (constructed idleStats) [.entry .cpu ⟨10,50,61 / 2⟩,.entry .cpu ⟨10,50,31⟩] = some last ∧
      component (entry last.self .cpu) .last = 31 ∧ component (entry last.shown .cpu) .last = 30 ∧
      (threshold .cpu : ℚ) = 1 :=
    ⟨_,rfl,by decide +kernel,by decide +kernel,by decide +kernel⟩
  obtain ⟨last,done,now,shown,th⟩ := ends
  have fresh := always_last always done .cpu .last
  rw [now,shown,th] at fresh
  norm_num at fresh

end Starter.Statistics
