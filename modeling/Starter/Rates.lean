import Starter.Extremes
import Starter.Lib.Runs
import Starter.ProcStat
import Starter.Statistics

/-!
The collector of the process statistics (`lib/process-stats-collector.c`). Its timer has the
interval that it was made with (`lib/stats-collector.c`), but the counters of
`/proc/self/io` are divided by `SAMPLING_INTERVAL_S`, whatever has passed since they were last
read.
-/
namespace Starter.Rates
open Gdouble Methods Statistics Extremes ProcStat Lib.Runs Lib.Scanning

/-- The fields of `STProcessStatsCollectorPrivate` that are read again. -/
structure Private where
  utimePrev : UInt64
  stimePrev : UInt64
  nivcswPrev : UInt64
  monotonicTimePrev : Int
  vmsizeCurrentKb : UInt64
  vmrssCurrentKb : UInt64
  vmswapCurrentKb : UInt64
  rcharPrev : UInt64
  wcharPrev : UInt64
  clkTck : Int
deriving DecidableEq

/-- `sscanf` with `%lu` behind the name of a line: the variable keeps its value where no number stands. -/
def scanned (key : String) (line : List Char) (out : UInt64) : UInt64 :=
  match sscanf [.lu] (line.drop key.toList.length) with
  | v :: _ => UInt64.ofNat v.toNat
  | [] => out

/-- `g_str_has_prefix`. -/
def gStrHasPrefix (line : List Char) (key : String) : Bool := key.toList.isPrefixOf line

def readMemoryLine (state : Private) (line : List Char) : Private :=
  if gStrHasPrefix line "VmSize:" then { state with vmsizeCurrentKb := scanned "VmSize:" line state.vmsizeCurrentKb }
  else if gStrHasPrefix line "VmRSS:" then { state with vmrssCurrentKb := scanned "VmRSS:" line state.vmrssCurrentKb }
  else if gStrHasPrefix line "VmSwap:" then { state with vmswapCurrentKb := scanned "VmSwap:" line state.vmswapCurrentKb }
  else state

/-- `read_proc_status_memory`, of the contents of the file if it can be opened. -/
def readProcStatusMemory (file : Option (List Char)) (state : Private) : Bool × Private :=
  match file with
  | none => (false,state)
  | some file =>
    let state := (fgetsLoop 256 file file.length).foldl readMemoryLine
      { state with vmsizeCurrentKb := 0, vmrssCurrentKb := 0, vmswapCurrentKb := 0 }
    (decide (0 < state.vmrssCurrentKb),state)

/-- The variables of `read_proc_io`. -/
structure ProcIo where
  rcharOut : UInt64
  wcharOut : UInt64
  rcharFound : Bool
  wcharFound : Bool

def readIoLine (io : ProcIo) (line : List Char) : ProcIo :=
  if gStrHasPrefix line "rchar:" then { io with rcharOut := scanned "rchar:" line io.rcharOut, rcharFound := true }
  else if gStrHasPrefix line "wchar:" then { io with wcharOut := scanned "wchar:" line io.wcharOut, wcharFound := true }
  else io

/-- `read_proc_io`: what it returns, and the two variables behind it. -/
def readProcIo (file : Option (List Char)) (out : UInt64 × UInt64) : Bool × UInt64 × UInt64 :=
  match file with
  | none => (false,out)
  | some file =>
    let io := (fgetsLoop 256 file file.length).foldl readIoLine ⟨out.1,out.2,false,false⟩
    (io.rcharFound && io.wcharFound,io.rcharOut,io.wcharOut)

example : readProcIo (some "rchar: 10240\nwchar: 17\nsyscr: 3\n".toList) (0,0) = (true,10240,17) := by decide +kernel

/-- `init_monitoring` of a private structure of zeros. What `read_proc_stat_process` leaves in the variables it is given
depends on how far it comes. -/
def initMonitoring (clkTck : Int) (monotonicTime : Int) (utime stime nivcsw : UInt64) (io : Option (List Char)) : Private :=
  let (_,rchar,wchar) := readProcIo io (0,0)
  ⟨utime,stime,nivcsw,monotonicTime,0,0,0,rchar,wchar,if clkTck ≤ 0 then 100 else clkTck⟩

section
variable {α : Type} [FiniteGdouble α]

/-- A conversion from an integer. -/
def gdouble (n : Int) : α := ofRat n

/-- `SAMPLING_INTERVAL_S`. -/
def samplingIntervalS : α := ofRat 5

/-- `calculate_cpu_usage`. -/
def calculateCpuUsage (state : Private) (utimeCurr stimeCurr : UInt64) (monotonicTimeCurr : Int) : α × Private :=
  let procTimeCurr := utimeCurr + stimeCurr
  let procTimePrev := state.utimePrev + state.stimePrev
  if procTimeCurr < procTimePrev then (zero,state)
  else
    let deltaProcTime := procTimeCurr - procTimePrev
    let deltaTimeUs := monotonicTimeCurr - state.monotonicTimePrev
    let elapsedTimeJiffies : α := mul (div (gdouble deltaTimeUs) (ofRat 1000000)) (gdouble state.clkTck)
    (if 0 < deltaTimeUs ∧ lt zero elapsedTimeJiffies = true then
        mul (div (gdouble deltaProcTime.toNat) elapsedTimeJiffies) (ofRat 100)
      else zero,
      { state with utimePrev := utimeCurr, stimePrev := stimeCurr })

/-- `calculate_context_switch_rate`. -/
def calculateContextSwitchRate (state : Private) (nivcswCurr : UInt64) : α × Private :=
  if nivcswCurr < state.nivcswPrev then (zero,state)
  else (div (gdouble (nivcswCurr - state.nivcswPrev).toNat) samplingIntervalS,{ state with nivcswPrev := nivcswCurr })

/-- What `update_callback` finds: the contents of the files that can be opened, and what its variables `rchar_curr` and
`wchar_curr` are before they are assigned. -/
structure Found where
  status : Option (List Char)
  stat : Option (List Char)
  io : Option (List Char)
  unassigned : UInt64 × UInt64

/-- The rate of a counter in KB/s. -/
def rateKbs (curr prev : UInt64) : α := div (div (gdouble (curr - prev).toNat) (ofRat 1024)) samplingIntervalS

/-- `update_callback`: what it returns, the private structure, and the statistics. -/
def updateCallback (monotonicTimeCurr : Int) (found : Found) (priv : Private) (stats : Stats α) : Bool × Private × Stats α :=
  let (memory,priv) := readProcStatusMemory found.status priv
  let refreshed (entry : StatsEntry α) (kb : UInt64) := if memory then stEntryUpdate entry (gdouble kb.toNat) else entry
  match readProcStatProcess found.stat with
  | some (some stat) =>
    let (sampled,rcharCurr,wcharCurr) := readProcIo found.io found.unassigned
    let ioRead := if sampled then stEntryUpdate stats.ioRead (rateKbs rcharCurr priv.rcharPrev) else stats.ioRead
    let ioWrite := if sampled then stEntryUpdate stats.ioWrite (rateKbs wcharCurr priv.wcharPrev) else stats.ioWrite
    let counted := if sampled then { priv with rcharPrev := rcharCurr, wcharPrev := wcharCurr } else priv
    let (contextSwitchRate,switched) := calculateContextSwitchRate counted (UInt64.ofNat stat.nivcsw.toNat)
    let (currentCpuUsage,used) :=
      calculateCpuUsage switched (UInt64.ofNat stat.utime.toNat) (UInt64.ofNat stat.stime.toNat) monotonicTimeCurr
    let given : Given α := ⟨none,fun
      | .vmsize => some (refreshed stats.vmsize priv.vmsizeCurrentKb)
      | .vmrss => some (refreshed stats.vmrss priv.vmrssCurrentKb)
      | .vmswap => some (refreshed stats.vmswap priv.vmswapCurrentKb)
      | .ioRead => some ioRead
      | .ioWrite => some ioWrite
      | .priority => some (stEntryUpdate stats.priority (gdouble stat.priority))
      | .threads => some (stEntryUpdate stats.threads (gdouble stat.numThreads))
      | .icswitch => some (stEntryUpdate stats.icswitch contextSwitchRate)
      | .cpu => some (stEntryUpdate stats.cpu currentCpuUsage)⟩
    (true,{ used with monotonicTimePrev := monotonicTimeCurr },(stStatsSetFull stats given).self)
  | _ => (false,priv,stats)

end

/-! ## Memory and usage leave the counters alone -/

theorem readMemoryLine_counters (state : Private) (line : List Char) :
    (readMemoryLine state line).rcharPrev = state.rcharPrev ∧ (readMemoryLine state line).wcharPrev = state.wcharPrev := by
  unfold readMemoryLine
  split_ifs <;> exact ⟨rfl,rfl⟩

theorem readProcStatusMemory_counters (file : Option (List Char)) (state : Private) :
    (readProcStatusMemory file state).2.rcharPrev = state.rcharPrev ∧
      (readProcStatusMemory file state).2.wcharPrev = state.wcharPrev := by
  have kept : ∀ (lines : List (List Char)) (state : Private),
      (lines.foldl readMemoryLine state).rcharPrev = state.rcharPrev ∧
        (lines.foldl readMemoryLine state).wcharPrev = state.wcharPrev := by
    intro lines
    induction lines with
    | nil => exact fun _ => ⟨rfl,rfl⟩
    | cons line lines ih =>
      intro state
      obtain ⟨read,written⟩ := readMemoryLine_counters state line
      obtain ⟨reads,writes⟩ := ih (readMemoryLine state line)
      exact ⟨reads.trans read,writes.trans written⟩
  cases file with
  | none => exact ⟨rfl,rfl⟩
  | some file => exact kept _ _

section
variable {α : Type} [FiniteGdouble α]

theorem calculateContextSwitchRate_counters (state : Private) (nivcsw : UInt64) :
    (calculateContextSwitchRate (α := α) state nivcsw).2.rcharPrev = state.rcharPrev ∧
      (calculateContextSwitchRate (α := α) state nivcsw).2.wcharPrev = state.wcharPrev := by
  unfold calculateContextSwitchRate
  split <;> exact ⟨rfl,rfl⟩

theorem calculateCpuUsage_counters (state : Private) (utime stime : UInt64) (monotonicTime : Int) :
    (calculateCpuUsage (α := α) state utime stime monotonicTime).2.rcharPrev = state.rcharPrev ∧
      (calculateCpuUsage (α := α) state utime stime monotonicTime).2.wcharPrev = state.wcharPrev := by
  unfold calculateCpuUsage
  dsimp only
  split <;> exact ⟨rfl,rfl⟩

/-- The counters that a call of `update_callback` takes a sample of. -/
def sampled (found : Found) : Option (UInt64 × UInt64) :=
  if (readProcStatProcess found.stat).join.isSome && (readProcIo found.io found.unassigned).1 then
    some (readProcIo found.io found.unassigned).2
  else none

variable (monotonicTime : Int) {found : Found} (priv : Private) (stats : Stats α)

theorem updateCallback_sampled {curr : UInt64 × UInt64} (taken : sampled found = some curr) :
    (updateCallback monotonicTime found priv stats).2.1.rcharPrev = curr.1 ∧
      (updateCallback monotonicTime found priv stats).2.1.wcharPrev = curr.2 ∧
      (updateCallback monotonicTime found priv stats).2.2.ioRead.last = rateKbs curr.1 priv.rcharPrev ∧
      (updateCallback monotonicTime found priv stats).2.2.ioWrite.last = rateKbs curr.2 priv.wcharPrev := by
  obtain ⟨keptRead,keptWritten⟩ := readProcStatusMemory_counters found.status priv
  unfold sampled at taken
  split at taken
  case isFalse => cases taken
  case isTrue both =>
    rw [Bool.and_eq_true] at both
    cases taken
    unfold updateCallback
    cases read : readProcStatProcess found.stat with
    | none => exact absurd read (never_beyond _)
    | some result =>
      cases result with
      | none =>
        rw [read] at both
        cases both.1
      | some stat =>
        dsimp only
        rw [(calculateCpuUsage_counters _ _ _ _).1,(calculateCpuUsage_counters _ _ _ _).2,
          (calculateContextSwitchRate_counters _ _).1,(calculateContextSwitchRate_counters _ _).2,both.2,← keptRead,
          ← keptWritten]
        exact ⟨rfl,rfl,rfl,rfl⟩

theorem updateCallback_unsampled (missed : sampled found = none) :
    (updateCallback monotonicTime found priv stats).2.1.rcharPrev = priv.rcharPrev ∧
      (updateCallback monotonicTime found priv stats).2.1.wcharPrev = priv.wcharPrev := by
  have kept := readProcStatusMemory_counters found.status priv
  unfold sampled at missed
  split at missed
  case isTrue => cases missed
  case isFalse failed =>
    unfold updateCallback
    cases read : readProcStatProcess found.stat with
    | none => exact kept
    | some result =>
      cases result with
      | none => exact kept
      | some stat =>
        have unread : (readProcIo found.io found.unassigned).1 = false := by simpa [read] using failed
        dsimp only
        rw [(calculateCpuUsage_counters _ _ _ _).1,(calculateCpuUsage_counters _ _ _ _).2,
          (calculateContextSwitchRate_counters _ _).1,(calculateContextSwitchRate_counters _ _).2,unread]
        exact kept

end

/-! ## Runs -/

/-- A successful sample: when it was taken, in microseconds, the counters, and the rates that the statistics show then. -/
structure Sample where
  time : Int
  rchar : UInt64
  wchar : UInt64
  readRate : ℚ
  writeRate : ℚ
deriving DecidableEq

/-- A collector with its samples so far, the newest first. It keeps the counters of the newest. -/
structure Collector where
  priv : Private
  stats : Stats ℚ
  time : Int
  samples : List Sample
  keeps : ∀ last ∈ samples.head?, priv.rcharPrev = last.rchar ∧ priv.wcharPrev = last.wchar

/-- `st_process_stats_collector_new`. It takes a sample of the counters, but shows no rates. -/
def stProcessStatsCollectorNew (stats : Stats ℚ) (clkTck monotonicTime : Int) (utime stime nivcsw : UInt64)
    (io : Option (List Char)) : Collector where
  priv := initMonitoring clkTck monotonicTime utime stime nivcsw io
  stats := stats
  time := monotonicTime
  samples := if (readProcIo io (0,0)).1 then
    [⟨monotonicTime,(readProcIo io (0,0)).2.1,(readProcIo io (0,0)).2.2,0,0⟩] else []
  keeps := by
    split
    · rintro last ⟨⟩
      exact ⟨rfl,rfl⟩
    · rintro last ⟨⟩

/-- A call of `update_callback`, an interval after the one before. -/
def tick (intervalMs : Nat) (self : Collector) (found : Found) : Collector :=
  let time := self.time + intervalMs * 1000
  let after := updateCallback time found self.priv self.stats
  { priv := after.2.1
    stats := after.2.2
    time := time
    samples := (sampled found).elim self.samples fun curr =>
      ⟨time,curr.1,curr.2,after.2.2.ioRead.last,after.2.2.ioWrite.last⟩ :: self.samples
    keeps := by
      cases taken : sampled found with
      | none =>
        obtain ⟨read,written⟩ := updateCallback_unsampled time self.priv self.stats taken
        intro last newest
        obtain ⟨reads,writes⟩ := self.keeps last newest
        exact ⟨read.trans reads,written.trans writes⟩
      | some curr =>
        obtain ⟨read,written,-,-⟩ := updateCallback_sampled time self.priv self.stats taken
        rintro last ⟨⟩
        exact ⟨read,written⟩ }

def step (intervalMs : Nat) (self : Collector) (found : Found) : Option Collector := some (tick intervalMs self found)

/-- The counters do not decrease. -/
def Grows (self : Collector) (found : Found) : Prop :=
  ∀ curr ∈ sampled found, ∀ last ∈ self.samples.head?, last.rchar ≤ curr.1 ∧ last.wchar ≤ curr.2

instance (self : Collector) (found : Found) : Decidable (Grows self found) :=
  decidable_of_iff ((sampled found).all (fun curr => self.samples.head?.all fun last =>
    decide (last.rchar ≤ curr.1 ∧ last.wchar ≤ curr.2)) = true) (by simp [Grows,Option.all_eq_true])

/-- What a rate says has been transferred: each of its values times the seconds since the sample before. -/
def transferred (rate : Sample → ℚ) : List Sample → ℚ
  | sample :: previous :: samples =>
    rate sample * ((sample.time - previous.time : ℚ) / 1000000) + transferred rate (previous :: samples)
  | _ => 0

def AddsUp (rate : Sample → ℚ) (counter : Sample → UInt64) (samples : List Sample) : Prop :=
  ∀ last ∈ samples.head?, ∀ first ∈ samples.getLast?,
    transferred rate samples = (((counter last).toNat : ℚ) - (counter first).toNat) / 1024

/-- The rates add up to what the counters have counted. -/
def Conserved (self : Collector) : Prop :=
  AddsUp Sample.readRate Sample.rchar self.samples ∧ AddsUp Sample.writeRate Sample.wchar self.samples

/-- A sample is taken five seconds after the one before, or the counters have not moved. -/
def Timely (intervalMs : Nat) (self : Collector) (found : Found) : Prop :=
  ∀ curr ∈ sampled found, ∀ last ∈ self.samples.head?,
    self.time + intervalMs * 1000 = last.time + 5000000 ∨ curr = (last.rchar,last.wchar)

/-- On exact numbers a rate is a fifth of what has been counted. -/
theorem rateKbs_eq {curr prev : UInt64} (grows : prev ≤ curr) :
    (rateKbs curr prev : ℚ) = ((curr.toNat : ℚ) - prev.toNat) / 1024 / 5 := by
  have counted : ((curr - prev).toNat : ℚ) = (curr.toNat : ℚ) - prev.toNat := by
    rw [UInt64.toNat_sub_of_le _ _ grows,Nat.cast_sub (UInt64.le_iff_toNat_le.mp grows)]
  rw [← counted]
  exact congrArg (fun n : ℚ => n / 1024 / 5) (Int.cast_natCast _)

/-- A rate for five seconds is right of a sample after as many seconds, and where there was nothing to count. -/
theorem rate_iff {curr prev : UInt64} (grows : prev ≤ curr) (now last : Int) :
    (rateKbs curr prev : ℚ) * ((now - last : ℚ) / 1000000) = ((curr.toNat : ℚ) - prev.toNat) / 1024 ↔
      now = last + 5000000 ∨ curr = prev := by
  rw [rateKbs_eq grows]
  have scaled : ∀ counted elapsed : ℚ, counted / 1024 / 5 * (elapsed / 1000000) = counted / 1024 ↔
      elapsed = 5000000 ∨ counted = 0 := by
    intro counted elapsed
    constructor
    · intro same
      rcases eq_or_ne counted 0 with nothing | some
      · exact .inr nothing
      · refine .inl (mul_left_cancel₀ some ?_)
        linarith
    · rintro (rfl | rfl)
      · ring
      · ring
  refine (scaled _ _).trans (or_congr ⟨fun same => ?_,fun same => ?_⟩ ⟨fun same => ?_,fun same => ?_⟩)
  · have cast : (now : ℚ) = ((last + 5000000 : Int) : ℚ) := by
      push_cast
      linarith
    exact Int.cast_injective cast
  · rw [same]
    push_cast
    ring
  · exact UInt64.toNat_inj.mp (Nat.cast_injective (sub_eq_zero.mp same))
  · rw [same,sub_self]

/-- What one more sample adds. -/
theorem addsUp_cons_iff {rate : Sample → ℚ} {counter : Sample → UInt64} {sample previous : Sample} {samples : List Sample}
    (rated : rate sample = rateKbs (counter sample) (counter previous)) (grows : counter previous ≤ counter sample)
    (before : AddsUp rate counter (previous :: samples)) : AddsUp rate counter (sample :: previous :: samples) ↔
      sample.time = previous.time + 5000000 ∨ counter sample = counter previous := by
  obtain ⟨first,oldest⟩ := List.getLast?_isSome.mpr (List.cons_ne_nil previous samples) |> Option.isSome_iff_exists.mp
  have sum := before previous rfl first oldest
  rw [← rate_iff grows,← rated]
  constructor
  · intro after
    have total := after sample rfl first (by rw [List.getLast?_cons_cons,oldest]; rfl)
    rw [transferred,sum] at total
    linarith
  · rintro added last ⟨⟩ first' oldest'
    rw [List.getLast?_cons_cons,oldest] at oldest'
    cases oldest'
    rw [transferred,sum,added]
    ring

theorem addsUp_single (rate : Sample → ℚ) (counter : Sample → UInt64) (sample : Sample) : AddsUp rate counter [sample] := by
  rintro last ⟨⟩ first ⟨⟩
  show (0 : ℚ) = (((counter sample).toNat : ℚ) - (counter sample).toNat) / 1024
  rw [sub_self,zero_div]

theorem conserved_new (stats : Stats ℚ) (clkTck monotonicTime : Int) (utime stime nivcsw : UInt64) (io : Option (List Char)) :
    Conserved (stProcessStatsCollectorNew stats clkTck monotonicTime utime stime nivcsw io) := by
  unfold Conserved stProcessStatsCollectorNew
  dsimp only
  split
  · exact ⟨addsUp_single _ _ _,addsUp_single _ _ _⟩
  · constructor <;> rintro last ⟨⟩

/-- One call keeps the rates adding up exactly if its sample is timely. -/
theorem tick_conserved_iff (intervalMs : Nat) {self : Collector} {found : Found} (conserved : Conserved self)
    (grows : Grows self found) : Conserved (tick intervalMs self found) ↔ Timely intervalMs self found := by
  cases taken : sampled found with
  | none =>
    have same : (tick intervalMs self found).samples = self.samples := by
      show (sampled found).elim _ _ = _
      rw [taken,Option.elim_none]
    have timely : Timely intervalMs self found := by
      intro curr member
      rw [taken] at member
      cases member
    rw [Conserved,same]
    exact iff_of_true conserved timely
  | some curr =>
    obtain ⟨-,-,readRate,writeRate⟩ :=
      updateCallback_sampled (self.time + intervalMs * 1000) self.priv self.stats taken
    obtain ⟨reads,writes⟩ := conserved
    have keeps := self.keeps
    unfold Grows at grows
    simp only [Conserved,Timely,tick,taken,Option.elim_some,Option.mem_def,Option.some.injEq,forall_eq'] at grows ⊢
    cases samples : self.samples with
    | nil =>
      refine iff_of_true ⟨addsUp_single _ _ _,addsUp_single _ _ _⟩ ?_
      rintro last ⟨⟩
    | cons previous rest =>
      rw [samples] at reads writes keeps grows
      obtain ⟨keptRead,keptWritten⟩ := keeps previous rfl
      obtain ⟨growsRead,growsWritten⟩ := grows previous rfl
      rw [keptRead] at readRate
      rw [keptWritten] at writeRate
      rw [addsUp_cons_iff readRate growsRead reads,addsUp_cons_iff writeRate growsWritten writes]
      simp only [List.head?_cons,Option.some.injEq,forall_eq',← or_and_left,Prod.ext_iff]

/-- In a run of calls that are an interval apart the rates add up all along to what the counters have counted exactly if
every sample is taken five seconds after the one before it, unless nothing was counted between them. -/
theorem conserved_iff (intervalMs : Nat) (stats : Stats ℚ) (clkTck monotonicTime : Int) (utime stime nivcsw : UInt64)
    (io : Option (List Char)) (founds : List Found)
    (grows : Meets (step intervalMs) Grows (stProcessStatsCollectorNew stats clkTck monotonicTime utime stime nivcsw io) founds) :
    Always (step intervalMs) Conserved (stProcessStatsCollectorNew stats clkTck monotonicTime utime stime nivcsw io) founds ↔
      Meets (step intervalMs) (Timely intervalMs)
        (stProcessStatsCollectorNew stats clkTck monotonicTime utime stime nivcsw io) founds := by
  refine always_iff_meets_where (fun s found _ done => nomatch done) ?_ (conserved_new _ _ _ _ _ _ _) grows
  rintro self found next conserved grows ⟨⟩
  exact tick_conserved_iff intervalMs conserved grows

private def entry : StatsEntry ℚ := stEntryInit

private def idle : Stats ℚ := ⟨"lamp",entry,entry,entry,entry,entry,entry,entry,entry,entry⟩

private def statText : List Char := "1 (lamp) S".toList ++ spaced (List.replicate 39 ['1'])

/-- The files with these counters. -/
private def counting (io : String) : Found := ⟨none,some statText,some io.toList,(0,0)⟩

/-- Two intervals of 2500 ms, the first of them without a sample. -/
theorem conserved_iff_halves :
    Always (step 2500) Conserved (stProcessStatsCollectorNew idle 100 0 1 1 1 (some "rchar: 0\nwchar: 0\n".toList))
        [⟨none,some statText,none,(0,0)⟩,counting "rchar: 10240\nwchar: 0\n"] ↔
      Meets (step 2500) (Timely 2500) (stProcessStatsCollectorNew idle 100 0 1 1 1 (some "rchar: 0\nwchar: 0\n".toList))
        [⟨none,some statText,none,(0,0)⟩,counting "rchar: 10240\nwchar: 0\n"] :=
  conserved_iff 2500 idle 100 0 1 1 1 _ _ (by decide +kernel)

/-- With the interval of a server ten kilobytes are shown as two. -/
theorem rates_fall_short : ∃ founds,
    Meets (step 1000) Grows (stProcessStatsCollectorNew idle 100 0 1 1 1 (some "rchar: 0\nwchar: 0\n".toList)) founds ∧
      ¬ Always (step 1000) Conserved
        (stProcessStatsCollectorNew idle 100 0 1 1 1 (some "rchar: 0\nwchar: 0\n".toList)) founds := by
  refine ⟨[counting "rchar: 10240\nwchar: 0\n"],by decide +kernel,fun always => ?_⟩
  have conserved := always_last always rfl
  rw [tick_conserved_iff 1000 (conserved_new _ _ _ _ _ _ _) (by decide +kernel)] at conserved
  have timely := conserved (10240,0) (by decide +kernel) ⟨0,0,0,0,0⟩ (by decide +kernel)
  exact absurd timely (by decide +kernel)

end Starter.Rates
