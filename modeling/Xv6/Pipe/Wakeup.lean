import Xv6.Pipe.Fifo

namespace Xv6
namespace Pipe

open Foundation Function

/-!
# Wakeups on pipes

Whenever the lock is free, a writer that sleeps has found the pipe full, and it
still is.  For readers this fails.  A writer that is killed while it fills the
pipe leaves `pipewrite` by the exit inside of the loop, which wakes nobody, so a
reader may sleep on although the pipe is full.  If no killed process gets to
store bytes, a reader that sleeps has found the pipe empty, and it still is.
-/

variable {channel : Channel}

section

variable {Pid : Type} {system : System Pid} {pid : Pid}

/-- A writer sleeps only while the pipe is full and has a reader. -/
def WritersWait (system : System Pid) : Prop :=
  ∀ pid, (system.procs pid).SleepsOn .nwrite → system.pi.Full ∧ system.pi.readopen = true

/-- A reader sleeps only while the pipe is empty and has a writer. -/
def ReadersWait (system : System Pid) : Prop :=
  ∀ pid, (system.procs pid).SleepsOn .nread → system.pi.Empty ∧ system.pi.writeopen = true

/-- A process that is reading has a descriptor. -/
def ReadersHold (system : System Pid) : Prop :=
  ∀ pid, (system.procs pid).activity.channel = some .nread → system.pi.readopen = true

/-! ## Who sleeps -/

theorem sleepsOn_wakeup {other : Channel} :
    ((system.wakeup channel).procs pid).SleepsOn other ↔
      (system.procs pid).SleepsOn other ∧ other ≠ channel := by
  rw [System.wakeup]
  dsimp only
  split
  · rename_i sleeps
    constructor
    · intro still
      exact absurd still.1 Bool.false_ne_true
    · rintro ⟨sleepsOther, different⟩
      have same := sleeps.2.symm.trans sleepsOther.2
      exact absurd (Option.some.inj same).symm different
  · rename_i awake
    constructor
    · intro sleepsOther
      refine ⟨sleepsOther, ?_⟩
      intro same
      rw [same] at sleepsOther
      exact awake sleepsOther
    · exact fun sleepsOther => sleepsOther.1

theorem not_sleepsOn_wakeup (system : System Pid) (channel : Channel) (pid : Pid) :
    ¬ ((system.wakeup channel).procs pid).SleepsOn channel :=
  fun sleeps => (sleepsOn_wakeup.mp sleeps).2 rfl

variable [DecidableEq Pid]

theorem sleepsOn_sleep {other : Pid} {activity : Activity} :
    ((system.sleep pid activity).procs other).SleepsOn channel ↔
      if other = pid then activity.channel = some channel
      else (system.procs other).SleepsOn channel := by
  rw [System.sleep]
  dsimp only
  split
  · rename_i same
    rw [same, update_self]
    exact ⟨fun sleeps => sleeps.2, fun isChannel => ⟨rfl, isChannel⟩⟩
  · rename_i different
    rw [update_of_ne different]

theorem sleepsOn_leave {other : Pid} {writable : Bool} {n value : Int} :
    ((system.leave pid writable n value).procs other).SleepsOn channel →
      (system.procs other).SleepsOn channel := by
  rw [System.leave]
  dsimp only
  by_cases same : other = pid
  · rw [same, update_self]
    intro sleeps
    exact absurd sleeps.1 Bool.false_ne_true
  · rw [update_of_ne same]
    exact fun sleeps => sleeps

theorem sleepsOn_kill {other : Pid} {wakes : Bool}
    (sleeps : ((kill pid wakes system).procs other).SleepsOn channel) :
    (system.procs other).SleepsOn channel := by
  rw [kill] at sleeps
  dsimp only at sleeps
  by_cases same : other = pid
  · rw [same, update_self] at sleeps
    rw [same]
    exact ⟨(Bool.and_eq_true _ _ ▸ sleeps.1).1, sleeps.2⟩
  · rw [update_of_ne same] at sleeps
    exact sleeps

/-! ## Writers -/

namespace WritersWait

theorem leave (waits : WritersWait system) (pid : Pid) (writable : Bool) (n value : Int) :
    WritersWait (system.leave pid writable n value) :=
  fun other sleeps => waits other (sleepsOn_leave sleeps)

omit [DecidableEq Pid] in
theorem wakeup (waits : WritersWait system) (channel : Channel) :
    WritersWait (system.wakeup channel) :=
  fun other sleeps => waits other (sleepsOn_wakeup.mp sleeps).1

omit [DecidableEq Pid] in
/-- A writer that stores a byte has found the pipe not full, so that no other
writer sleeps. -/
theorem store (waits : WritersWait system) (notFull : ¬ system.pi.Full) (ch : UInt8) :
    WritersWait (system.store ch) :=
  fun other sleeps => absurd (waits other sleeps).1 notFull

theorem pipewriteFrom (waits : WritersWait system) (source : Nat → Option UInt8) (n : Int)
    (i left : Nat) : WritersWait (pipewriteFrom pid source n i left system) := by
  induction left generalizing i system with
  | zero => exact (waits.wakeup .nread).leave pid true n i
  | succ left ih =>
    rw [Pipe.pipewriteFrom]
    by_cases full : system.pi.Full
    · rw [if_pos full]
      split
      · exact waits.leave pid true n (-1)
      · rename_i goesOn
        have isOpen : system.pi.readopen = true := by
          rw [← Bool.not_eq_false]
          exact fun closed => goesOn (Or.inl closed)
        exact fun _ _ => ⟨full, isOpen⟩
    · rw [if_neg full]
      cases source i with
      | none => exact (waits.wakeup .nread).leave pid true n i
      | some ch => exact ih (waits.store full ch) (i + 1)

theorem piperead (waits : WritersWait system) (target : Nat → Bool) (n : Int) :
    WritersWait (piperead pid target n system) := by
  rw [Pipe.piperead]
  split
  · split
    · exact waits.leave pid false n (-1)
    · intro other sleeps
      rw [sleepsOn_sleep] at sleeps
      split at sleeps
      · cases sleeps
      · exact waits other sleeps
  · intro other sleeps
    exact absurd (sleepsOn_leave sleeps) (not_sleepsOn_wakeup _ _ _)

end WritersWait

/-! ## Readers -/

namespace ReadersWait

theorem leave (waits : ReadersWait system) (pid : Pid) (writable : Bool) (n value : Int) :
    ReadersWait (system.leave pid writable n value) :=
  fun other sleeps => waits other (sleepsOn_leave sleeps)

omit [DecidableEq Pid] in
theorem of_wakeup (system : System Pid) : ReadersWait (system.wakeup .nread) :=
  fun other sleeps => absurd sleeps (not_sleepsOn_wakeup system .nread other)

/-- A writer that is not killed wakes the readers on every way out, or there
are none. -/
theorem of_pipewriteFrom (holds : ReadersHold system) (alive : (system.procs pid).killed = false)
    (source : Nat → Option UInt8) (n : Int) (i left : Nat) :
    ReadersWait (pipewriteFrom pid source n i left system) := by
  induction left generalizing i system with
  | zero => exact (of_wakeup system).leave pid true n i
  | succ left ih =>
    rw [pipewriteFrom]
    split
    · split
      · rename_i fails
        rw [alive] at fails
        have closed : system.pi.readopen = false :=
          fails.resolve_right Bool.false_ne_true
        intro other sleeps
        have isOpen := holds other (sleepsOn_leave sleeps).2
        rw [closed] at isOpen
        cases isOpen
      · intro other sleeps
        rw [sleepsOn_sleep] at sleeps
        split at sleeps
        · cases sleeps
        · exact absurd sleeps (not_sleepsOn_wakeup system .nread other)
    · split
      · exact (of_wakeup system).leave pid true n i
      · rename_i ch _
        have stillHolds : ReadersHold (system.store ch) := holds
        exact ih stillHolds alive (i + 1)

theorem pipewriteFrom_of_full (waits : ReadersWait system) (full : system.pi.Full)
    (source : Nat → Option UInt8) (n : Int) (i left : Nat) :
    ReadersWait (pipewriteFrom pid source n i left system) := by
  cases left with
  | zero => exact (of_wakeup system).leave pid true n i
  | succ left =>
    rw [pipewriteFrom, if_pos full]
    split
    · exact waits.leave pid true n (-1)
    · intro other sleeps
      rw [sleepsOn_sleep] at sleeps
      split at sleeps
      · cases sleeps
      · exact absurd sleeps (not_sleepsOn_wakeup system .nread other)

/-- A reader that takes bytes has found that no reader has to sleep. -/
theorem piperead (waits : ReadersWait system) (target : Nat → Bool) (n : Int) :
    ReadersWait (piperead pid target n system) := by
  rw [Pipe.piperead]
  split
  · rename_i waiting
    split
    · exact waits.leave pid false n (-1)
    · exact fun _ _ => waiting
  · rename_i notWaiting
    intro other sleeps
    have before := (sleepsOn_wakeup.mp (sleepsOn_leave sleeps)).1
    rw [(frame_pipereadFrom target 0 n.toNat).1] at before
    exact absurd (waits other before) notWaiting

end ReadersWait

/-! ## Runs -/

omit [DecidableEq Pid] in
theorem readopen_pipereadFrom (target : Nat → Bool) (i left : Nat) :
    (pipereadFrom target i left system).1.pi.readopen = system.pi.readopen := by
  induction left generalizing i system with
  | zero => rfl
  | succ left ih =>
    rw [pipereadFrom]
    split
    · rfl
    · split
      · exact ih (i + 1)
      · rfl

theorem readopen_pipewriteFrom (source : Nat → Option UInt8) (n : Int) (i left : Nat) :
    (pipewriteFrom pid source n i left system).pi.readopen = system.pi.readopen := by
  induction left generalizing i system with
  | zero => rfl
  | succ left ih =>
    rw [pipewriteFrom]
    split
    · split
      · rfl
      · rfl
    · split
      · rfl
      · exact ih (i + 1)

theorem readopen_piperead (target : Nat → Bool) (n : Int) :
    (piperead pid target n system).pi.readopen = system.pi.readopen := by
  rw [piperead]
  split
  · split
    · rfl
    · rfl
  · exact readopen_pipereadFrom target 0 n.toNat

namespace ReadersHold

theorem pipewrite (holds : ReadersHold system) (source : Nat → Option UInt8) (n : Int) (i : Nat) :
    ReadersHold (pipewrite pid source n i system) := by
  intro other isReading
  rcases pipewriteFrom_supplies source n i (n.toNat - i) other with ⟨_, _, _, _, own, isActivity⟩
  rw [Pipe.pipewrite, readopen_pipewriteFrom]
  rw [Pipe.pipewrite, isActivity] at isReading
  split at isReading
  · rcases own with isOutside | isWriting
    · rw [isOutside] at isReading
      cases isReading
    · rw [isWriting] at isReading
      cases isReading
  · exact holds other isReading

theorem of_piperead (isOpen : system.pi.readopen = true) (target : Nat → Bool) (n : Int) :
    ReadersHold (piperead pid target n system) := by
  intro other _
  rw [readopen_piperead]
  exact isOpen

end ReadersHold

/-- A process that is killed does not store bytes. -/
def Careful (system : System Pid) : Action Pid → Prop
  | .write pid _ _ => (system.procs pid).killed = true → system.pi.Full
  | .run pid => (system.procs pid).activity.uses true = true →
      (system.procs pid).killed = true → system.pi.Full
  | .read .. | .close _ | .kill .. => True

instance (system : System Pid) : (action : Action Pid) → Decidable (Careful system action)
  | .write pid _ _ => inferInstanceAs (Decidable ((system.procs pid).killed = true → _))
  | .run pid => inferInstanceAs (Decidable (_ → (system.procs pid).killed = true → _))
  | .read .. | .close _ | .kill .. => .isTrue trivial

variable [Fintype Pid] {action : Action Pid} {after : System Pid}

theorem WritersWait.next (waits : WritersWait system) (stepped : step system action = .next after) :
    WritersWait after := by
  cases stepped_of_step stepped with
  | write pid source n _ => exact waits.pipewriteFrom source n 0 _
  | read pid target n _ | readOn pid target n _ _ => exact waits.piperead target n
  | writeOn pid source n i _ _ => exact waits.pipewriteFrom source n i _
  | close writable _ =>
    cases writable with
    | true => exact fun other sleeps => waits other (sleepsOn_wakeup.mp sleeps).1
    | false => exact fun other sleeps => absurd sleeps (not_sleepsOn_wakeup _ _ _)
  | kill pid wakes => exact fun other sleeps => waits other (sleepsOn_kill sleeps)

/-- What is kept for readers on careful runs. -/
structure ReadersSound (system : System Pid) : Prop where
  waits : ReadersWait system
  holds : ReadersHold system

namespace ReadersSound

omit [Fintype Pid] in
/-- Whether or not the writer is killed. -/
theorem pipewrite (sound : ReadersSound system)
    (careful : (system.procs pid).killed = true → system.pi.Full)
    (source : Nat → Option UInt8) (n : Int) (i : Nat) :
    ReadersSound (pipewrite pid source n i system) := by
  refine ⟨?_, sound.holds.pipewrite source n i⟩
  cases killed : (system.procs pid).killed with
  | true => exact sound.waits.pipewriteFrom_of_full (careful killed) source n i _
  | false => exact ReadersWait.of_pipewriteFrom sound.holds killed source n i _

theorem next (sound : ReadersSound system) (careful : Careful system action)
    (stepped : step system action = .next after) : ReadersSound after := by
  cases stepped_of_step stepped with
  | write pid source n _ => exact sound.pipewrite careful source n 0
  | read pid target n ready =>
    exact ⟨sound.waits.piperead target n, ReadersHold.of_piperead ready.2 target n⟩
  | writeOn pid source n i _ isWriting =>
    apply sound.pipewrite
    exact careful (by rw [isWriting]; rfl)
  | readOn pid target n _ isReading =>
    have isOpen := sound.holds pid (by rw [isReading]; rfl)
    exact ⟨sound.waits.piperead target n, ReadersHold.of_piperead isOpen target n⟩
  | close writable closing =>
    cases writable with
    | true =>
      refine ⟨ReadersWait.of_wakeup _, ?_⟩
      intro other isReading
      rw [pipeclose, if_pos rfl, activity_wakeup] at isReading
      exact sound.holds other isReading
    | false =>
      refine ⟨fun other sleeps => sound.waits other (sleepsOn_wakeup.mp sleeps).1, ?_⟩
      intro other isReading
      rw [pipeclose, if_neg (by decide), activity_wakeup] at isReading
      have uses := closing.2 other
      cases isActivity : (system.procs other).activity with
      | outside | writing source n i =>
        rw [isActivity] at isReading
        cases isReading
      | reading target n =>
        rw [isActivity] at uses
        cases uses
  | kill pid wakes =>
    refine ⟨fun other sleeps => sound.waits other (sleepsOn_kill sleeps), ?_⟩
    intro other isReading
    rw [activity_kill] at isReading
    exact sound.holds other isReading

end ReadersSound

/-- No wakeup is lost: a writer sleeps only while the pipe is full and has a
reader, and, if no killed process stores bytes, a reader sleeps only while the
pipe is empty and has a writer. -/
theorem no_lost_wakeup {data : Nat → UInt8} {schedule : List (Action Pid)} {final : System Pid}
    (reached : exec step (pipealloc data) schedule = .next final) :
    (∀ pid, (final.procs pid).SleepsOn .nwrite → final.pi.Full ∧ final.pi.readopen = true) ∧
    (Meets step Careful (pipealloc data) schedule →
      ∀ pid, (final.procs pid).SleepsOn .nread → final.pi.Empty ∧ final.pi.writeopen = true) := by
  have nobody : ∀ pid channel, ¬ ((pipealloc data : System Pid).procs pid).SleepsOn channel :=
    fun pid channel sleeps => Bool.false_ne_true sleeps.1
  constructor
  · have waits : WritersWait (pipealloc data : System Pid) :=
      fun pid sleeps => absurd sleeps (nobody pid .nwrite)
    exact exec_invariant' WritersWait (fun _ _ _ => WritersWait.next) waits reached
  · intro careful
    have sound : ReadersSound (pipealloc data : System Pid) :=
      ⟨fun pid sleeps => absurd sleeps (nobody pid .nread), fun _ _ => rfl⟩
    exact (exec_invariant ReadersSound (fun _ _ _ => ReadersSound.next) sound careful reached).waits

end

/-- A reader waits, gets two bytes one after the other, and waits again. -/
def waitAgain : List (Action (Fin 2)) :=
  [.read 1 (fun _ => true) 1, .write 0 (fun _ => some 65) 2, .run 1, .read 1 (fun _ => true) 1,
   .read 1 (fun _ => true) 1]

theorem no_lost_wakeup_waitAgain : ∃ final,
    exec step (pipealloc fun _ => 0) waitAgain = .next final ∧
      (final.procs 1).SleepsOn .nread ∧ final.pi.Empty := by
  have ran : ∃ final, exec step (pipealloc fun _ => 0) waitAgain = .next final ∧
      (final.procs 1).SleepsOn .nread := by
    decide +kernel
  have careful : Meets step Careful (pipealloc fun _ => 0) waitAgain := by
    decide +kernel
  rcases ran with ⟨final, reached, sleeps⟩
  exact ⟨final, reached, sleeps, ((no_lost_wakeup reached).2 careful 1 sleeps).1⟩

/-- A reader sleeps, and a writer with more bytes than fit is killed. -/
def killedWriter : List (Action (Fin 2)) :=
  [.read 1 (fun _ => true) 1, .kill 0 true, .write 0 (fun _ => some 65) 513]

/-- The reader still sleeps, although the pipe is full. -/
theorem killedWriter_loses_wakeup : ∃ final,
    exec step (pipealloc fun _ => 0) killedWriter = .next final ∧
      (final.procs 1).SleepsOn .nread ∧ final.pi.Full ∧ ¬ final.pi.Empty := by
  decide +kernel

end Pipe
end Xv6
