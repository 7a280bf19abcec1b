import PellOs.Scheduler.Execution
import PellOs.Scheduler.Sleepers

/-!
# Lengths of sleeps

A call of `register_one_hit` that waits has stored the tick at which it ends.  It is woken in time
unless that tick does not fit into `finish_time`, another call lowers it, or there is no free timer
to begin with.
-/

namespace PellOs

/-- The ticks that the call asks for have passed. -/
def Due (machine : Machine) (call delay : Nat) : Prop := call + msToTicks delay ≤ machine.elapsed

instance (machine : Machine) (call delay : Nat) : Decidable (Due machine call delay) :=
  inferInstanceAs (Decidable (_ ≤ _))

/-- The call returns in the next step of its task. -/
def Returning (machine : Machine) (call delay : Nat) : Prop :=
  ∃ rest, machine.stack = .hitTest call delay timerCount :: rest ∨
    ∃ slot, machine.stack = .hitLeave call delay slot :: rest

/-- A statement of `register_one_hit` that shortens no sleep.  The last timer that is tested is
free, or the delay has passed meanwhile.  The tick that is stored in `finish_time` fits, and it does
not come before one that is stored there and is still to come. -/
def Lasting (machine : Machine) : Frame → Prop
  | .hitTest call delay slot =>
      slot + 1 = timerCount → (machine.scheduler.timerArr slot).finishTime ≠ 0 →
        Due machine call delay
  | .hitFinish call delay slot =>
      (Due machine call delay ∨ machine.scheduler.currentTick + msToTicks delay < 2 ^ 32) ∧
      ((machine.scheduler.timerArr slot).finishTime ≤ machine.scheduler.currentTick ∨
        (machine.scheduler.timerArr slot).finishTime ≤
          (machine.scheduler.currentTick + msToTicks delay) % 2 ^ 32)
  | _ => True

instance (machine : Machine) (frame : Frame) : Decidable (Lasting machine frame) := by
  unfold Lasting
  split <;> infer_instance

/-- A call of `register_one_hit` at any of its statements. -/
inductive Hits (call delay : Nat) : Frame → Prop
  | test (slot : Nat) : Hits call delay (.hitTest call delay slot)
  | finish (slot : Nat) : Hits call delay (.hitFinish call delay slot)
  | ptr (slot : Nat) : Hits call delay (.hitPtr call delay slot)
  | block (slot : Nat) : Hits call delay (.hitBlock call delay slot)
  | leave (slot : Nat) : Hits call delay (.hitLeave call delay slot)

/-- A call of `register_one_hit` that has stored the tick at which it ends. -/
inductive Waits (call delay slot : Nat) : Frame → Prop
  | ptr : Waits call delay slot (.hitPtr call delay slot)
  | block : Waits call delay slot (.hitBlock call delay slot)
  | leave : Waits call delay slot (.hitLeave call delay slot)

/-- The timer does not elapse before the delay has passed. -/
def Covers (machine : Machine) (call delay slot : Nat) : Prop :=
  Due machine call delay ∨
    (machine.scheduler.currentTick < (machine.scheduler.timerArr slot).finishTime ∧
      (machine.scheduler.timerArr slot).finishTime < 2 ^ 32 ∧
      call + msToTicks delay + machine.scheduler.currentTick ≤
        machine.elapsed + (machine.scheduler.timerArr slot).finishTime)

section Steps

variable {action : MachineAction} {before after : Machine} {call delay slot : Nat}

theorem elapsed_step (step : MachineStep action before after) :
    before.elapsed ≤ after.elapsed := by
  cases step with
  | tick =>
      rw [before.tick_cases.2]
      exact Nat.le_succ _
  | _ => exact le_refl _

theorem Due.step (due : Due before call delay) (step : MachineStep action before after) :
    Due after call delay :=
  le_trans due (elapsed_step step)

theorem Covers.due (covers : Covers before call delay slot)
    (elapsed : (before.scheduler.timerArr slot).finishTime ≤ before.scheduler.currentTick) :
    Due before call delay := by
  rcases covers with due | ⟨running, -, -⟩
  · exact due
  · omega

theorem Covers.congr (covers : Covers before call delay slot)
    (finish : (after.scheduler.timerArr slot).finishTime =
      (before.scheduler.timerArr slot).finishTime)
    (tick : after.scheduler.currentTick = before.scheduler.currentTick)
    (elapsed : after.elapsed = before.elapsed) : Covers after call delay slot := by
  rw [Covers, Due] at covers ⊢
  rwa [finish, tick, elapsed]

theorem Covers.step (covers : Covers before call delay slot)
    (lasting : NextStatement Lasting action before) (step : MachineStep action before after) :
    Covers after call delay slot := by
  by_cases passed : Due before call delay
  · exact Or.inl (passed.step step)
  obtain ⟨running, small, enough⟩ := covers.resolve_left passed
  cases step with
  | tick =>
      rw [Covers, Due, Machine.timerArr_tick, Machine.currentTick_tick, before.tick_cases.2,
        Nat.mod_eq_of_lt (by simp only [wordSize]; omega)]
      omega
  | call | allocate | allocateFails => exact covers
  | @advance _ top frames rest scheduler stack result =>
      cases effect_of_advance result with
      | quiet plain quiet =>
          refine covers.congr ?_ quiet.currentTick rfl
          rw [Machine.scheduler_next, quiet.timerArr]
      | publish | mark | block | timers | switch => exact covers
      | finish other wait stored =>
          obtain ⟨-, later⟩ := lasting.allowed stack
          by_cases same : slot = stored
          · subst same
            refine Or.inr ?_
            rw [Machine.scheduler_next, Scheduler.timerArr_setTimer, if_pos rfl,
              Machine.elapsed_next]
            have fits := Nat.mod_lt (before.scheduler.currentTick + msToTicks wait)
              (Nat.two_pow_pos 32)
            dsimp only [Scheduler.setTimer]
            omega
          · refine covers.congr ?_ rfl rfl
            rw [Machine.scheduler_next, Scheduler.timerArr_setTimer, if_neg same]
      | ptr other wait stored =>
          refine covers.congr ?_ rfl rfl
          rw [Machine.scheduler_next, Scheduler.timerArr_setTimer]
          split_ifs with same
          · rw [same]
          · rfl
      | timer checked inside =>
          refine covers.congr ?_ ?_ rfl
          · rw [Machine.scheduler_next, Scheduler.timerArr_checkTimer, if_neg]
            rintro ⟨elapsed, rfl⟩
            exact absurd elapsed.2 (Nat.not_le.mpr running)
          · rw [Machine.scheduler_next, Scheduler.checkTimer]
            split_ifs <;> rfl

/-- A statement leaves the call of `register_one_hit` that it belongs to. -/
theorem Flow.hits {top frame : Frame} {frames : List Frame} (flow : Flow top frames)
    (member : frame ∈ frames) (hits : Hits call delay frame) : Hits call delay top := by
  cases flow with
  | hitFound | hitNext | hitFinish | hitPtr =>
      obtain rfl := List.mem_singleton.mp member
      cases hits
      constructor
  | hitBlock =>
      rcases List.mem_pair.mp member with rfl | rfl
      · cases hits
      · cases hits
        constructor
  | exitEnable => rcases List.mem_pair.mp member with rfl | rfl <;> cases hits
  | forkEnable | exitLeave | hitNone | hitLeave | selectLeave => cases member
  | _ =>
      obtain rfl := List.mem_singleton.mp member
      cases hits

/-- A call begins to wait when it stores its tick. -/
theorem Flow.waits {top frame : Frame} {frames : List Frame} (flow : Flow top frames)
    (member : frame ∈ frames) (waits : Waits call delay slot frame) :
    Waits call delay slot top ∨ top = .hitFinish call delay slot := by
  cases flow with
  | hitFinish =>
      obtain rfl := List.mem_singleton.mp member
      cases waits
      exact Or.inr rfl
  | hitPtr =>
      obtain rfl := List.mem_singleton.mp member
      cases waits
      exact Or.inl .ptr
  | hitBlock =>
      rcases List.mem_pair.mp member with rfl | rfl
      · cases waits
      · cases waits
        exact Or.inl .block
  | exitEnable => rcases List.mem_pair.mp member with rfl | rfl <;> cases waits
  | forkEnable | exitLeave | hitNone | hitLeave | selectLeave => cases member
  | _ =>
      obtain rfl := List.mem_singleton.mp member
      cases waits

/-- A call of `register_one_hit` has been made before, or is made now. -/
theorem hits_step (step : MachineStep action before after) {task : Nat} {frame : Frame}
    (member : frame ∈ after.calls task) (hits : Hits call delay frame) :
    (∃ earlier ∈ before.calls task, Hits call delay earlier) ∨ call = before.elapsed := by
  rcases step.mem_calls_after member with old | rfl | entry |
    ⟨-, rfl, top, rest, frames, scheduler, stack, result, new, -⟩ |
      ⟨page, rest, -, -, -, -, ⟨-, rfl⟩ | ⟨-, rfl⟩⟩
  · exact Or.inl ⟨frame, old, hits⟩
  · cases hits
  · cases entry with
    | hit =>
        cases hits
        exact Or.inr rfl
    | _ => cases hits
  · refine Or.inl ⟨top, ?_, (flow_of_advance result).hits new hits⟩
    rw [← Machine.stack, stack]
    exact List.mem_cons_self
  · cases hits
  · cases hits

theorem waits_step (step : MachineStep action before after) {task : Nat} {frame : Frame}
    (member : frame ∈ after.calls task) (waits : Waits call delay slot frame) :
    (∃ earlier ∈ before.calls task, Waits call delay slot earlier) ∨
      ∃ rest, action = .advance ∧ before.stack = .hitFinish call delay slot :: rest ∧
        task = before.scheduler.current ∧
        after = before.next (.hitPtr call delay slot :: rest) (before.scheduler.setTimer slot
          ⟨(before.scheduler.currentTick + msToTicks delay) % 2 ^ 32,
            (before.scheduler.timerArr slot).taskPtr⟩) := by
  rcases step.mem_calls_after member with old | rfl | entry |
    ⟨acts, rfl, top, rest, frames, scheduler, stack, result, new, rfl⟩ |
      ⟨page, rest, -, -, -, -, ⟨-, rfl⟩ | ⟨-, rfl⟩⟩
  · exact Or.inl ⟨frame, old, waits⟩
  · cases waits
  · cases entry <;> cases waits
  · rcases (flow_of_advance result).waits new waits with earlier | rfl
    · refine Or.inl ⟨top, ?_, earlier⟩
      rw [← Machine.stack, stack]
      exact List.mem_cons_self
    · obtain ⟨rfl, rfl⟩ := Prod.mk.inj (Option.some.inj result)
      exact Or.inr ⟨rest, acts, stack, rfl, rfl⟩
  · cases waits
  · cases waits

/-- The timer of a call covers it from the moment its tick is stored. -/
theorem covers_finish {rest : List Frame}
    (lasting : Lasting before (.hitFinish call delay slot)) (past : call ≤ before.elapsed) :
    Covers (before.next (.hitPtr call delay slot :: rest) (before.scheduler.setTimer slot
      ⟨(before.scheduler.currentTick + msToTicks delay) % 2 ^ 32,
        (before.scheduler.timerArr slot).taskPtr⟩)) call delay slot := by
  rcases lasting.1 with due | fits
  · exact Or.inl due
  · rw [Covers, Due, Machine.scheduler_next, Machine.elapsed_next, Scheduler.timerArr_setTimer,
      if_pos rfl]
    dsimp only [Scheduler.setTimer]
    rw [Nat.mod_eq_of_lt fits]
    omega

/-- The loop over the timers ends where the last one is in use. -/
theorem last_used_of_advance {scheduler changed : Scheduler} {top : Frame} {frames : List Frame}
    (result : advance scheduler top = some (frames, changed))
    (member : Frame.hitTest call delay timerCount ∈ frames) :
    ∃ slot, top = .hitTest call delay slot ∧ slot + 1 = timerCount ∧
      (scheduler.timerArr slot).finishTime ≠ 0 := by
  cases (flow_of_advance result).hits member (.test timerCount) with
  | test slot =>
      rw [advance] at result
      split_ifs at result with inside unused
      all_goals obtain ⟨rfl, -⟩ := Prod.mk.inj (Option.some.inj result)
      · cases List.mem_singleton.mp member
      · exact ⟨slot, rfl, (Frame.hitTest.inj (List.mem_singleton.mp member)).2.2.symm, unused⟩
      · cases member
  | finish | ptr | block | leave =>
      obtain ⟨rfl, -⟩ := Prod.mk.inj (Option.some.inj result)
      simp at member

/-- A call that tests no more timers has found the last one in use. -/
theorem unserved_step (step : MachineStep action before after)
    (lasting : NextStatement Lasting action before) {task : Nat}
    (member : Frame.hitTest call delay timerCount ∈ after.calls task) :
    Frame.hitTest call delay timerCount ∈ before.calls task ∨ Due before call delay := by
  rcases step.mem_calls_after member with old | impossible | entry |
    ⟨acts, rfl, top, rest, frames, scheduler, stack, result, new, rfl⟩ |
      ⟨page, rest, -, -, -, -, ⟨-, impossible⟩ | ⟨-, impossible⟩⟩
  · exact Or.inl old
  · cases impossible
  · cases entry
  · right
    obtain ⟨slot, rfl, last, used⟩ := last_used_of_advance result new
    subst acts
    exact lasting.allowed stack last used
  · cases impossible
  · cases impossible

end Steps

/-! ## Runs -/

/-- Calls of `register_one_hit` that wait are covered by their timers, and those that are about to
return are due. -/
structure Timed (machine : Machine) : Prop where
  inv : MachineInv machine
  past : ∀ task, ∀ frame ∈ machine.calls task, ∀ call delay, Hits call delay frame →
    call ≤ machine.elapsed
  covered : ∀ task, ∀ frame ∈ machine.calls task, ∀ call delay slot,
    Waits call delay slot frame → Covers machine call delay slot
  woken : ∀ task call delay slot, Frame.hitLeave call delay slot ∈ machine.calls task →
    (machine.scheduler.tasks task).state = .running → Due machine call delay
  unserved : ∀ task call delay, Frame.hitTest call delay timerCount ∈ machine.calls task →
    Due machine call delay

namespace Timed

variable {action : MachineAction} {before after : Machine}

theorem initial (task tick : Nat) : Timed (initialMachine task tick) := by
  have only (other : Nat) (frame : Frame)
      (member : frame ∈ (initialMachine task tick).calls other) : frame = .running := by
    rw [calls_initialMachine] at member
    split_ifs at member
    · exact List.mem_singleton.mp member
    · cases member
  refine ⟨.initial task tick, ?_, ?_, ?_, ?_⟩
  · intro other frame member call delay hits
    rw [only other frame member] at hits
    cases hits
  · intro other frame member call delay slot waits
    rw [only other frame member] at waits
    cases waits
  · intro other call delay slot member
    cases only other _ member
  · intro other call delay member
    cases only other _ member

private theorem covered_step (timed : Timed before)
    (lasting : NextStatement Lasting action before) (step : MachineStep action before after)
    (task : Nat) (frame : Frame)
    (member : frame ∈ after.calls task) (call delay slot : Nat)
    (waits : Waits call delay slot frame) : Covers after call delay slot := by
  rcases waits_step step member waits with ⟨earlier, old, waited⟩ | ⟨rest, acts, stack, -, rfl⟩
  · exact (timed.covered task earlier old call delay slot waited).step lasting step
  · subst acts
    refine covers_finish (lasting.allowed stack) ?_
    refine timed.past before.scheduler.current (.hitFinish call delay slot) ?_ _ _ (.finish slot)
    rw [← Machine.stack, stack]
    exact List.mem_cons_self

private theorem woken_step (timed : Timed before) (step : MachineStep action before after)
    (task call delay slot : Nat) (member : Frame.hitLeave call delay slot ∈ after.calls task)
    (running : (after.scheduler.tasks task).state = .running) : Due after call delay := by
  rcases step.mem_calls_after member with old | impossible | entry |
    ⟨-, rfl, top, rest, frames, scheduler, stack, result, new, rfl⟩ |
      ⟨page, rest, -, -, -, -, ⟨-, impossible⟩ | ⟨-, impossible⟩⟩
  · refine Due.step ?_ step
    rcases Slotted.running_step step running with was_running | none | ⟨fired, elapsed, ptr, -⟩
    · exact timed.woken task call delay slot old was_running
    · rw [none] at old
      cases old
    · have held := timed.inv.slotted.claimed fired elapsed.1
      rw [ptr] at held
      obtain rfl := Slotted.slot_unique timed.inv.well held ⟨call, delay, Or.inr old⟩
      exact (timed.covered task _ old call delay fired .leave).due elapsed.2
  · cases impossible
  · cases entry
  · rcases (flow_of_advance result).waits new .leave with waits | rfl
    · cases waits with
      | block =>
          obtain ⟨-, rfl⟩ := Prod.mk.inj (Option.some.inj result)
          rw [Machine.scheduler_next, Scheduler.state_setState, if_pos rfl] at running
          cases running
      | ptr | leave =>
          obtain ⟨rfl, -⟩ := Prod.mk.inj (Option.some.inj result)
          simp at new
    · obtain ⟨rfl, -⟩ := Prod.mk.inj (Option.some.inj result)
      simp at new
  · cases impossible
  · cases impossible

theorem step (timed : Timed before) (step : StepWhere (NextStatement Lasting) before after) :
    Timed after := by
  obtain ⟨action, lasting, step⟩ := step
  refine ⟨timed.inv.step step, ?_, timed.covered_step lasting step, timed.woken_step step, ?_⟩
  · intro task frame member call delay hits
    have later := elapsed_step step
    rcases hits_step step member hits with ⟨earlier, old, hit⟩ | now
    · exact le_trans (timed.past task earlier old call delay hit) later
    · omega
  · intro task call delay member
    refine Due.step ?_ step
    rcases unserved_step step lasting member with old | due
    · exact timed.unserved task call delay old
    · exact due

theorem of_run {task tick : Nat} {machine : Machine}
    (run : ReachesWhere (NextStatement Lasting) (initialMachine task tick) machine) :
    Timed machine := by
  induction run with
  | refl => exact .initial task tick
  | tail _ last ih => exact ih.step last

theorem due_of_returning {machine : Machine} (timed : Timed machine) {call delay : Nat}
    (returning : Returning machine call delay) : Due machine call delay := by
  obtain ⟨rest, stack | ⟨slot, stack⟩⟩ := returning
  · refine timed.unserved machine.scheduler.current call delay ?_
    rw [← Machine.stack, stack]
    exact List.mem_cons_self
  · refine timed.woken machine.scheduler.current call delay slot ?_ ?_
    · rw [← Machine.stack, stack]
      exact List.mem_cons_self
    · exact Slotted.running_of_leave timed.inv.well timed.inv.controlled stack rfl rfl

end Timed

/-- A call of `register_one_hit` that is about to return is due, in every machine reached while each
call finds a free timer, the ticks fit into `finish_time` and no call lowers the tick of another. -/
theorem sleeps_not_cut_short {task tick : Nat} {machine : Machine}
    (run : ReachesWhere (NextStatement Lasting) (initialMachine task tick) machine)
    (call delay : Nat)
    (returning : Returning machine call delay) : call + msToTicks delay ≤ machine.elapsed :=
  (Timed.of_run run).due_of_returning returning

/-- Of two tasks one sleeps for a tick. -/
theorem sleeps_not_cut_short_one :
    ∃ machine, Returning machine 0 100 ∧ 0 + msToTicks 100 ≤ machine.elapsed := by
  have ran : ((initialMachine 4096 0).execute (NextStatement Lasting)
      (forkActions 8192 ++ waitActions 15 ++ .tick :: List.replicate 11 .advance ++
        .tick :: List.replicate 10 .advance)).map Machine.stack =
         some [.hitLeave 0 100 0, .running] := by decide +kernel
  obtain ⟨machine, run, stack⟩ := Machine.exists_of_execute ran
  have returning : Returning machine 0 100 := ⟨[.running], Or.inr ⟨0, stack⟩⟩
  exact ⟨machine, returning, sleeps_not_cut_short run 0 100 returning⟩

/-- Of six tasks that wait for one tick each, the sixth finds no free timer and goes on at once. -/
theorem sixth_sleeper_returns :
    ∃ machine, ReachesWhere (fun _ _ => True) (initialMachine 4096 0) machine ∧
      Returning machine 0 100 ∧ machine.elapsed < 0 + msToTicks 100 := by
  have ran : ((initialMachine 4096 0).execute (fun _ _ => True)
      ([8192, 12288, 16384, 20480, 24576].flatMap forkActions ++
        [15, 16, 17, 18, 19, 5].flatMap waitActions)).map
          (fun machine => (machine.stack, machine.elapsed)) =
            some ([.hitTest 0 100 timerCount, .running], 0) := by decide +kernel
  obtain ⟨machine, run, observed⟩ := Machine.exists_of_execute ran
  obtain ⟨stack, elapsed⟩ := Prod.mk.inj observed
  refine ⟨machine, run, ⟨[.running], Or.inl stack⟩, ?_⟩
  rw [elapsed]
  decide

end PellOs
