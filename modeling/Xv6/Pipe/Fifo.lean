import Xv6.Pipe.Calls

namespace Xv6
namespace Pipe

open Foundation Function

/-!
# A pipe is a queue of bytes

What was stored is what was received, followed by the contents of the circular
buffer.  Every stretch of a call keeps this balance, so it holds whenever the
lock is free, in whatever order readers and writers get it and however often
the counters have wrapped around.
-/

variable {pi : PipeState} {target : Nat → Bool} {n : Int}

section

variable {Pid : Type} {system : System Pid} {pid : Pid}

/-! ## The balance -/

/-- The bytes in the pipe are those that were stored and not yet received. -/
structure Balanced (system : System Pid) : Prop where
  bounded : system.pi.count ≤ PIPESIZE
  stored : system.stored = system.received ++ system.pi.contents PIPESIZE

theorem full_iff : pi.Full ↔ pi.count = PIPESIZE :=
  (Circular.count_eq_capacity_iff (by decide)).symm

theorem empty_iff : pi.Empty ↔ pi.count = 0 :=
  Circular.count_eq_zero_iff.symm

namespace Balanced

variable (balanced : Balanced system)
include balanced

theorem wakeup (channel : Channel) : Balanced (system.wakeup channel) :=
  ⟨balanced.bounded, balanced.stored⟩

theorem pipeclose (writable : Bool) : Balanced (pipeclose writable system) := by
  cases writable with
  | true | false => exact ⟨balanced.bounded, balanced.stored⟩

/-- A writer has found room. -/
theorem store (notFull : ¬ system.pi.Full) (ch : UInt8) : Balanced (system.store ch) := by
  have room : system.pi.count < PIPESIZE :=
    Nat.lt_of_le_of_ne balanced.bounded fun full => notFull (full_iff.mpr full)
  constructor
  · show (system.pi.toCircular.push PIPESIZE ch).count ≤ PIPESIZE
    rw [Circular.count_push (by decide) room]
    exact room
  · show system.stored ++ [ch] =
      system.received ++ (system.pi.toCircular.push PIPESIZE ch).contents PIPESIZE
    rw [Circular.contents_push (by decide) (by decide) room, balanced.stored, List.append_assoc]

/-- A reader has found a byte, and copies it out. -/
theorem take (notEmpty : ¬ system.pi.Empty) : Balanced (system.take true) := by
  have some : system.pi.count ≠ 0 := fun none => notEmpty (empty_iff.mpr none)
  constructor
  · show system.pi.toCircular.pop.count ≤ PIPESIZE
    have less := Circular.count_pop some
    have bounded := balanced.bounded
    omega
  · show system.stored = (system.received ++ [system.pi.toCircular.head PIPESIZE]) ++
      system.pi.toCircular.pop.contents PIPESIZE
    rw [List.append_assoc, List.singleton_append,
      ← Circular.contents_pop (by decide) some, balanced.stored]

theorem pipereadFrom (i left : Nat)
    (mapped : ∀ k, k < left → k < system.pi.count → target (i + k) = true) :
    Balanced (pipereadFrom target i left system).1 := by
  induction left generalizing i system with
  | zero => exact balanced
  | succ left ih =>
    rw [Pipe.pipereadFrom]
    by_cases empty : system.pi.Empty
    · rw [if_pos empty]
      exact balanced
    · have some : system.pi.count ≠ 0 := fun none => empty (empty_iff.mpr none)
      have isMapped : target i = true := mapped 0 (by omega) (Nat.pos_of_ne_zero some)
      rw [if_neg empty, if_pos isMapped]
      apply ih (balanced.take empty) (i + 1)
      intro k below inside
      have less : (system.take true).pi.count + 1 = system.pi.count := Circular.count_pop some
      rw [Nat.add_assoc, Nat.add_comm 1 k]
      exact mapped (k + 1) (by omega) (by omega)

variable [DecidableEq Pid]

theorem sleep (pid : Pid) (activity : Activity) : Balanced (system.sleep pid activity) :=
  ⟨balanced.bounded, balanced.stored⟩

theorem leave (pid : Pid) (writable : Bool) (n value : Int) :
    Balanced (system.leave pid writable n value) :=
  ⟨balanced.bounded, balanced.stored⟩

/-- The stretches of `pipewrite`: the induction is on the bytes that are left. -/
theorem pipewriteFrom (source : Nat → Option UInt8) (n : Int)
    (i left : Nat) : Balanced (pipewriteFrom pid source n i left system) := by
  induction left generalizing i system with
  | zero => exact (balanced.wakeup .nread).leave pid true n i
  | succ left ih =>
    rw [Pipe.pipewriteFrom]
    by_cases full : system.pi.Full
    · rw [if_pos full]
      split
      · exact balanced.leave pid true n (-1)
      · exact (balanced.wakeup .nread).sleep pid _
    · rw [if_neg full]
      cases source i with
      | none => exact (balanced.wakeup .nread).leave pid true n i
      | some ch => exact ih (balanced.store full ch) (i + 1)

theorem piperead (mapped : ∀ k, k < n.toNat → k < system.pi.count → target k = true) :
    Balanced (piperead pid target n system) := by
  rw [Pipe.piperead]
  split
  · split
    · exact balanced.leave pid false n (-1)
    · exact balanced.sleep pid _
  · apply leave
    apply wakeup
    apply balanced.pipereadFrom 0 n.toNat
    intro k below inside
    rw [Nat.zero_add]
    exact mapped k below inside

end Balanced

/-! ## Runs -/

/-- The buffers of all readers are mapped. -/
def Mapped : Action Pid → Prop
  | .read _ target n => ∀ k, k < n.toNat → target k = true
  | .write .. | .run _ | .close _ | .kill .. => True

instance : (action : Action Pid) → Decidable (Mapped action)
  | .read _ target n => inferInstanceAs (Decidable (∀ k, k < n.toNat → target k = true))
  | .write .. | .run _ | .close _ | .kill .. => .isTrue trivial

/-- The balance, and that the reads in progress have mapped buffers. -/
structure Sound (system : System Pid) : Prop extends Balanced system where
  mapped : ∀ pid target n, (system.procs pid).activity = .reading target n →
    ∀ k, k < n.toNat → target k = true

theorem frame_pipereadFrom (target : Nat → Bool) (i left : Nat) :
    (pipereadFrom target i left system).1.procs = system.procs ∧
      (pipereadFrom target i left system).1.returns = system.returns ∧
      (pipereadFrom target i left system).1.stored = system.stored := by
  induction left generalizing i system with
  | zero => exact ⟨rfl, rfl, rfl⟩
  | succ left ih =>
    rw [pipereadFrom]
    split
    · exact ⟨rfl, rfl, rfl⟩
    · split
      · exact ih (i + 1)
      · exact ⟨rfl, rfl, rfl⟩

theorem activity_wakeup (system : System Pid) (channel : Channel) (other : Pid) :
    ((system.wakeup channel).procs other).activity = (system.procs other).activity := by
  rw [System.wakeup]
  dsimp only
  split
  · rfl
  · rfl

variable [DecidableEq Pid]

section

variable (system : System Pid) (pid : Pid) (other : Pid)

theorem activity_sleep (activity : Activity) :
    ((system.sleep pid activity).procs other).activity =
      if other = pid then activity else (system.procs other).activity := by
  rw [System.sleep]
  dsimp only
  split
  · rename_i same
    rw [same, update_self]
  · rename_i different
    rw [update_of_ne different]

theorem activity_leave (writable : Bool) (n value : Int) :
    ((system.leave pid writable n value).procs other).activity =
      if other = pid then .outside else (system.procs other).activity := by
  rw [System.leave]
  dsimp only
  split
  · rename_i same
    rw [same, update_self]
  · rename_i different
    rw [update_of_ne different]

theorem activity_kill (wakes : Bool) :
    ((kill pid wakes system).procs other).activity = (system.procs other).activity := by
  rw [kill]
  dsimp only
  by_cases same : other = pid
  · rw [same, update_self]
  · rw [update_of_ne same]

end

/-- A writer stores the next bytes of its source, and returns or sleeps in
`pipewrite` with the bytes behind them to go; nobody else's call changes. -/
theorem pipewriteFrom_supplies (source : Nat → Option UInt8) (n : Int) (i left : Nat)
    (other : Pid) :
    ∃ more activity, (pipewriteFrom pid source n i left system).stored = system.stored ++ more ∧
      more.map some = (List.range' i more.length).map source ∧
      (activity = .outside ∨ activity = .writing source n (i + more.length)) ∧
      ((pipewriteFrom pid source n i left system).procs other).activity =
        if other = pid then activity else (system.procs other).activity := by
  induction left generalizing i system with
  | zero =>
    refine ⟨[], .outside, (List.append_nil _).symm, rfl, Or.inl rfl, ?_⟩
    rw [pipewriteFrom, activity_leave, activity_wakeup]
  | succ left ih =>
    rw [pipewriteFrom]
    split
    · split
      · exact ⟨[], .outside, (List.append_nil _).symm, rfl, Or.inl rfl, activity_leave ..⟩
      · refine ⟨[], .writing source n i, (List.append_nil _).symm, rfl, Or.inr rfl, ?_⟩
        rw [activity_sleep, activity_wakeup]
    · split
      · refine ⟨[], .outside, (List.append_nil _).symm, rfl, Or.inl rfl, ?_⟩
        rw [activity_leave, activity_wakeup]
      · rename_i ch isSource
        rcases @ih (system.store ch) (i + 1) with ⟨more, activity, isStored, fromSource, own, others⟩
        refine ⟨ch :: more, activity, ?_, ?_, ?_, others⟩
        · rw [isStored]
          exact List.append_assoc ..
        · rw [List.map_cons, List.length_cons, List.range'_succ, List.map_cons, fromSource, isSource]
        · rw [List.length_cons, Nat.add_comm more.length 1, ← Nat.add_assoc]
          exact own

theorem stored_piperead (system : System Pid) (pid : Pid) (target : Nat → Bool) (n : Int) :
    (piperead pid target n system).stored = system.stored := by
  rw [piperead]
  split
  · split
    · rfl
    · rfl
  · exact (frame_pipereadFrom target 0 n.toNat).2.2

theorem activity_piperead (target : Nat → Bool) (n : Int) (other : Pid) :
    ∃ activity, (activity = .outside ∨ activity = .reading target n) ∧
      ((piperead pid target n system).procs other).activity =
        if other = pid then activity else (system.procs other).activity := by
  rw [piperead]
  split
  · split
    · exact ⟨.outside, Or.inl rfl, activity_leave ..⟩
    · exact ⟨.reading target n, Or.inr rfl, activity_sleep ..⟩
  · refine ⟨.outside, Or.inl rfl, ?_⟩
    dsimp only
    rw [activity_leave, activity_wakeup, (frame_pipereadFrom target 0 n.toNat).1]

namespace Sound

theorem pipewrite (sound : Sound system) (source : Nat → Option UInt8) (n : Int) (i : Nat) :
    Sound (pipewrite pid source n i system) := by
  refine ⟨sound.toBalanced.pipewriteFrom source n i _, ?_⟩
  intro other target m isReading
  rcases pipewriteFrom_supplies source n i (n.toNat - i) other with ⟨_, _, _, _, own, isActivity⟩
  rw [Pipe.pipewrite, isActivity] at isReading
  split at isReading
  · rw [isReading] at own
    rcases own with impossible | impossible
    · cases impossible
    · cases impossible
  · exact sound.mapped other target m isReading

theorem piperead (sound : Sound system)
    (mapped : ∀ k, k < n.toNat → target k = true) : Sound (piperead pid target n system) := by
  refine ⟨sound.toBalanced.piperead fun k below _ => mapped k below, ?_⟩
  intro other target' m isReading
  rcases activity_piperead target n other with ⟨activity, own, isActivity⟩
  rw [isActivity] at isReading
  split at isReading
  · rw [isReading] at own
    rcases own with impossible | same
    · cases impossible
    · cases same
      exact mapped
  · exact sound.mapped other target' m isReading

variable [Fintype Pid] {action : Action Pid} {after : System Pid}

theorem next (sound : Sound system) (mapped : Mapped action)
    (stepped : step system action = .next after) : Sound after := by
  cases stepped_of_step stepped with
  | write pid source n _ => exact sound.pipewrite source n 0
  | read pid target n _ => exact sound.piperead mapped
  | writeOn pid source n i _ _ => exact sound.pipewrite source n i
  | readOn pid target n _ isReading => exact sound.piperead (sound.mapped pid target n isReading)
  | close writable _ =>
    refine ⟨sound.toBalanced.pipeclose writable, ?_⟩
    intro other target n isReading
    cases writable with
    | true =>
      rw [pipeclose, if_pos rfl, activity_wakeup] at isReading
      exact sound.mapped other target n isReading
    | false =>
      rw [pipeclose, if_neg (by decide), activity_wakeup] at isReading
      exact sound.mapped other target n isReading
  | kill pid wakes =>
    refine ⟨⟨sound.bounded, sound.stored⟩, ?_⟩
    intro other target n isReading
    rw [activity_kill] at isReading
    exact sound.mapped other target n isReading

end Sound

omit [DecidableEq Pid] in
theorem sound_pipealloc (data : Nat → UInt8) : Sound (pipealloc data : System Pid) := by
  have none : (pipealloc data : System Pid).pi.count = 0 := empty_iff.mp rfl
  refine ⟨⟨?_, ?_⟩, ?_⟩
  · rw [none]
    exact Nat.zero_le _
  · symm
    apply List.eq_nil_of_length_eq_zero
    rw [List.length_append, Circular.length_contents, none]
    rfl
  · intro pid target n impossible
    cases impossible

/-! ## Reads that return nothing -/

omit [DecidableEq Pid] in
theorem le_pipereadFrom (target : Nat → Bool) (i left : Nat) :
    i ≤ (pipereadFrom target i left system).2 := by
  induction left generalizing i system with
  | zero => exact Nat.le_refl i
  | succ left ih =>
    rw [pipereadFrom]
    split
    · exact Nat.le_refl i
    · split
      · exact Nat.le_trans (Nat.le_succ i) (ih (i + 1))
      · exact Nat.le_refl i

theorem returns_pipewriteFrom (system : System Pid) (pid : Pid) (source : Nat → Option UInt8)
    (n : Int) (i left : Nat) :
    (pipewriteFrom pid source n i left system).returns = system.returns ∨
      ∃ value, (pipewriteFrom pid source n i left system).returns =
        system.returns ++ [⟨pid, true, n, value⟩] := by
  induction left generalizing i system with
  | zero => exact Or.inr ⟨_, rfl⟩
  | succ left ih =>
    rw [pipewriteFrom]
    split
    · split
      · exact Or.inr ⟨_, rfl⟩
      · exact Or.inl rfl
    · split
      · exact Or.inr ⟨_, rfl⟩
      · exact ih _ (i + 1)

theorem returns_piperead (system : System Pid) (pid : Pid) (target : Nat → Bool) (n : Int) :
    (piperead pid target n system).returns = system.returns ∨
      ∃ value, (piperead pid target n system).returns =
        system.returns ++ [⟨pid, false, n, value⟩] := by
  rw [piperead]
  split
  · split
    · exact Or.inr ⟨_, rfl⟩
    · exact Or.inl rfl
  · refine Or.inr ⟨(pipereadFrom target 0 n.toNat system).2, ?_⟩
    dsimp only [System.leave, System.wakeup]
    rw [(frame_pipereadFrom target 0 n.toNat).2.1]

theorem piperead_eq_zero (positive : 0 < n) (mapped : ∀ k, k < n.toNat → target k = true)
    (returned : (piperead pid target n system).returns = system.returns ++ [⟨pid, false, n, 0⟩]) :
    system.pi.Empty ∧ system.pi.writeopen = false ∧
      (piperead pid target n system).pi = system.pi := by
  rw [piperead] at returned ⊢
  split at returned
  · split at returned
    · exact absurd returned (by simp [System.leave])
    · exact absurd returned (by simp [System.sleep])
  · rename_i notWaiting
    rw [if_neg notWaiting]
    simp only [System.leave, System.wakeup] at returned ⊢
    rw [(frame_pipereadFrom target 0 n.toNat).2.1] at returned
    have value := List.append_cancel_left returned
    simp only [List.cons.injEq, Return.mk.injEq, and_true, true_and] at value
    obtain ⟨left, isLeft⟩ : ∃ left, n.toNat = left + 1 := ⟨n.toNat - 1, by omega⟩
    rw [isLeft, pipereadFrom] at value ⊢
    by_cases empty : system.pi.Empty
    · rw [if_pos empty]
      refine ⟨empty, ?_, rfl⟩
      rw [← Bool.not_eq_true]
      exact fun isOpen => notWaiting ⟨empty, isOpen⟩
    · rw [if_neg empty, if_pos (mapped 0 (by omega))] at value
      have counted : 0 + 1 ≤ (pipereadFrom target (0 + 1) left (system.take true)).2 :=
        le_pipereadFrom target (0 + 1) left
      omega

variable [Fintype Pid]

theorem eq_piperead_of_returned {action : Action Pid} {after : System Pid} {value : Int}
    (stepped : step system action = .next after)
    (returned : after.returns = system.returns ++ [⟨pid, false, n, value⟩]) :
    ∃ target, after = piperead pid target n system ∧
      (action = .read pid target n ∨ (system.procs pid).activity = .reading target n) := by
  have notSame : after.returns ≠ system.returns := by
    rw [returned]
    simp
  have ofRead : ∀ other target m, after = piperead other target m system → other = pid ∧ m = n := by
    intro other target m isAfter
    rcases returns_piperead system other target m with same | ⟨value', appended⟩
    · exact absurd (by rw [isAfter, same]) notSame
    · rw [isAfter, appended] at returned
      have equal := List.append_cancel_left returned
      simp only [List.cons.injEq, Return.mk.injEq, and_true, true_and] at equal
      exact ⟨equal.1, equal.2.1⟩
  have ofWrite : ∀ other source m i, after ≠ pipewrite other source m i system := by
    intro other source m i isAfter
    rcases returns_pipewriteFrom system other source m i (m.toNat - i) with same | ⟨value', appended⟩
    · exact absurd (by rw [isAfter, pipewrite, same]) notSame
    · rw [isAfter, pipewrite, appended] at returned
      have equal := List.append_cancel_left returned
      simp at equal
  cases stepped_of_step stepped with
  | write other source m _ => exact absurd rfl (ofWrite other source m 0)
  | read other target m _ =>
    rcases ofRead other target m rfl with ⟨isPid, isN⟩
    subst isPid isN
    exact ⟨target, rfl, Or.inl rfl⟩
  | writeOn other source m i _ _ => exact absurd rfl (ofWrite other source m i)
  | readOn other target m _ isReading =>
    rcases ofRead other target m rfl with ⟨isPid, isN⟩
    subst isPid isN
    exact ⟨target, rfl, Or.inr isReading⟩
  | close writable _ =>
    cases writable with
    | true | false => exact absurd rfl notSame
  | kill other wakes => exact absurd rfl notSame

/-- A step stores nothing, or the next bytes of the source of a write, which
returns or has the bytes behind them to go. -/
def Supplied (system : System Pid) (action : Action Pid) (after : System Pid) : Prop :=
  after.stored = system.stored ∨
    ∃ pid source n i more, (action = .write pid source n ∧ i = 0 ∨
        action = .run pid ∧ (system.procs pid).activity = .writing source n i) ∧
      after.stored = system.stored ++ more ∧
      more.map some = (List.range' i more.length).map source ∧
      ((after.procs pid).activity = .outside ∨
        (after.procs pid).activity = .writing source n (i + more.length))

theorem supplied_of_step {action : Action Pid} {after : System Pid}
    (ran : step system action = .next after) : Supplied system action after := by
  have writes : ∀ pid source n i, (action = .write pid source n ∧ i = 0 ∨
      action = .run pid ∧ (system.procs pid).activity = .writing source n i) →
        Supplied system action (pipewrite pid source n i system) := by
    intro pid source n i origin
    rcases pipewriteFrom_supplies source n i (n.toNat - i) pid with
      ⟨more, activity, isStored, fromSource, own, isActivity⟩
    rw [if_pos rfl] at isActivity
    rw [← isActivity] at own
    exact Or.inr ⟨pid, source, n, i, more, origin, isStored, fromSource, own⟩
  cases stepped_of_step ran with
  | write pid source n _ => exact writes pid source n 0 (Or.inl ⟨rfl, rfl⟩)
  | writeOn pid source n i _ isWriting => exact writes pid source n i (Or.inr ⟨rfl, isWriting⟩)
  | read pid target n _ => exact Or.inl (stored_piperead system pid target n)
  | readOn pid target n _ _ => exact Or.inl (stored_piperead system pid target n)
  | close writable _ =>
    cases writable with
    | true | false => exact Or.inl rfl
  | kill pid wakes => exact Or.inl rfl

/-- A pipe is a queue of bytes: what readers have received is a prefix of what
writers have stored, byte by byte from their sources, the pipe holds the rest, and
a reader is told that there is nothing more only when all is received and no
writer is left. -/
theorem pipe_fifo {data : Nat → UInt8} {schedule : List (Action Pid)} {final : System Pid}
    (mapped : ∀ action ∈ schedule, Mapped action)
    (reached : exec step (pipealloc data) schedule = .next final) :
    (∃ pending, final.stored = final.received ++ pending ∧
      (final.pi.nwrite - final.pi.nread).toNat = pending.length ∧ pending.length ≤ PIPESIZE ∧
      ∀ k (inside : k < pending.length),
        final.pi.data ((final.pi.nread.toNat + k) % PIPESIZE) = pending[k]) ∧
    (∀ action after, step final action = .next after → Supplied final action after) ∧
    ∀ action after pid n, Mapped action → step final action = .next after →
      after.returns = final.returns ++ [⟨pid, false, n, 0⟩] → 0 < n →
      after.received = after.stored ∧ after.pi.writeopen = false := by
  have sound : Sound final := by
    apply exec_invariant Sound (fun _ _ _ => Sound.next) (sound_pipealloc data) _ reached
    apply meets_of_forall
    intro before action after middle isSchedule _
    exact mapped action (by rw [isSchedule]; exact List.mem_append_right _ List.mem_cons_self)
  refine ⟨⟨final.pi.contents PIPESIZE, sound.stored, ?_, ?_, ?_⟩, fun _ _ => supplied_of_step, ?_⟩
  · rw [Circular.length_contents]
    rfl
  · rw [Circular.length_contents]
    exact sound.bounded
  · exact fun k inside => (Circular.getElem_contents inside).symm
  · intro action after pid n isMapped stepped returned positive
    have soundAfter := sound.next isMapped stepped
    rcases eq_piperead_of_returned stepped returned with ⟨target, isAfter, origin⟩
    have targetMapped : ∀ k, k < n.toNat → target k = true := by
      rcases origin with isAction | isReading
      · rw [isAction] at isMapped
        exact isMapped
      · exact sound.mapped pid target n isReading
    rw [isAfter] at returned soundAfter ⊢
    rcases piperead_eq_zero positive targetMapped returned with ⟨empty, closed, same⟩
    have nothing : (piperead pid target n final).pi.contents PIPESIZE = [] := by
      apply List.eq_nil_of_length_eq_zero
      rw [Circular.length_contents, same]
      exact empty_iff.mp empty
    have stored := soundAfter.stored
    rw [nothing, List.append_nil] at stored
    rw [same]
    exact ⟨stored.symm, closed⟩

end

/-- A reader waits, gets two of three bytes, then the third, and then learns
that the writer is gone. -/
def drain : List (Action (Fin 2)) :=
  [.read 1 (fun _ => true) 2, .write 0 (fun i => some (UInt8.ofNat (97 + i))) 3, .run 1,
   .close true, .read 1 (fun _ => true) 5, .read 1 (fun _ => true) 5]

theorem pipe_fifo_drain : ∃ final, exec step (pipealloc fun _ => 0) drain = .next final ∧
    final.received = [97, 98, 99] ∧ final.received <+: final.stored := by
  have ran : ∃ final, exec step (pipealloc fun _ => 0) drain = .next final ∧
      final.received = [97, 98, 99] := by
    decide +kernel
  rcases ran with ⟨final, reached, isReceived⟩
  rcases (pipe_fifo (by decide) reached).1 with ⟨pending, stored, _⟩
  exact ⟨final, reached, isReceived, pending, stored.symm⟩

/-! ## Reads that fail

`nread` counts a byte before `copyout` has copied it.  So a byte that cannot be
copied out is in the pipe no more, and no reader gets it.
-/

section

variable {Pid : Type} [DecidableEq Pid] [Fintype Pid]

/-- The bytes in the pipe that a read asks for can all be copied out. -/
def Delivers (system : System Pid) (target : Nat → Bool) (n : Int) : Prop :=
  ∀ k, k < n.toNat → k < system.pi.count → target k = true

instance (system : System Pid) (target : Nat → Bool) (n : Int) :
    Decidable (Delivers system target n) :=
  inferInstanceAs (Decidable (∀ k, k < n.toNat → _))

/-- No call of `copyout` fails in the step. -/
def CopiesOut (system : System Pid) : Action Pid → Prop
  | .read _ target n => Delivers system target n
  | .run pid =>
    match (system.procs pid).activity with
    | .reading target n => Delivers system target n
    | .outside | .writing .. => True
  | .write .. | .close _ | .kill .. => True

instance (system : System Pid) : (action : Action Pid) → Decidable (CopiesOut system action)
  | .read _ target n => inferInstanceAs (Decidable (Delivers system target n))
  | .run pid =>
    match isActivity : (system.procs pid).activity with
    | .reading target n =>
      decidable_of_iff (Delivers system target n) (by simp [CopiesOut, isActivity])
    | .outside => .isTrue (by simp [CopiesOut, isActivity])
    | .writing .. => .isTrue (by simp [CopiesOut, isActivity])
  | .write .. | .close _ | .kill .. => .isTrue trivial

theorem Balanced.next {system after : System Pid} {action : Action Pid}
    (balanced : Balanced system) (copies : CopiesOut system action)
    (stepped : step system action = .next after) : Balanced after := by
  cases stepped_of_step stepped with
  | write pid source n _ => exact balanced.pipewriteFrom source n 0 _
  | read pid target n _ => exact balanced.piperead copies
  | writeOn pid source n i _ _ => exact balanced.pipewriteFrom source n i _
  | readOn pid target n _ isReading =>
    simp only [CopiesOut, isReading] at copies
    exact balanced.piperead copies
  | close writable _ => exact balanced.pipeclose writable
  | kill pid wakes => exact ⟨balanced.bounded, balanced.stored⟩

/-- Buffers of readers may end anywhere.  As long as no byte that `piperead`
takes lies behind the end, nothing is lost. -/
theorem delivered_prefix {data : Nat → UInt8} {schedule : List (Action Pid)} {final : System Pid}
    (copies : Meets step CopiesOut (pipealloc data) schedule)
    (reached : exec step (pipealloc data) schedule = .next final) :
    final.received <+: final.stored := by
  have balanced : Balanced final :=
    exec_invariant Balanced (fun _ _ _ => Balanced.next) (sound_pipealloc data).toBalanced copies
      reached
  rw [balanced.stored]
  exact List.prefix_append _ _

end

/-- Two bytes are read into a buffer that has room for two and is mapped no
further. -/
def shortBuffer : List (Action (Fin 2)) :=
  [.write 0 (fun i => some (UInt8.ofNat (97 + i))) 2, .read 1 (fun k => decide (k < 2)) 5]

theorem delivered_prefix_shortBuffer : ∃ final,
    exec step (pipealloc fun _ => 0) shortBuffer = .next final ∧ final.received = [97, 98] ∧
      final.received <+: final.stored := by
  have ran : ∃ final, exec step (pipealloc fun _ => 0) shortBuffer = .next final ∧
      final.received = [97, 98] := by
    decide +kernel
  rcases ran with ⟨final, reached, isReceived⟩
  exact ⟨final, reached, isReceived, delivered_prefix (by decide +kernel) reached⟩

/-- The first of two bytes is read into a buffer that is not mapped, and the
next reader gets the second one. -/
def unmappedBuffer : List (Action (Fin 2)) :=
  [.write 0 (fun i => some (UInt8.ofNat (97 + i))) 2, .read 1 (fun _ => false) 1,
   .read 1 (fun _ => true) 1]

theorem failing_read_loses_byte : ∃ final,
    exec step (pipealloc fun _ => 0) unmappedBuffer = .next final ∧ final.stored = [97, 98] ∧
      final.received = [98] ∧ ¬ final.received <+: final.stored := by
  decide +kernel

end Pipe
end Xv6
