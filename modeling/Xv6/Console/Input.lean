import Xv6.Console.Line
import Xv6.Foundation.Run
import Xv6.Panic

namespace Xv6
namespace Console
namespace Input

open Foundation Function

/-!
# Input from the console

Processes read from the console while characters are typed.  Everything that
`consoleread` and `consoleintr` do happens while `cons.lock` is held, and `sleep`
gives it up only when nobody can miss a wakeup any more.  So a read runs until it
returns or sleeps, and a process that was woken runs on from the test of the
inner loop.

The characters that have been committed are those that have been taken out,
followed by those that can be read.  Of the ones that were taken out, all but the
ends of file have been delivered.
-/

/-! ## The system -/

/-- The local variables of a `consoleread` that sleeps, with the bytes that it has
stored and a ticket that tells it from other calls.  `dst` says where the
destination can be written. -/
structure Reader where
  ticket : Nat
  dst : Nat → Bool
  target : Nat
  n : Nat
  got : List UInt8

structure Process where
  reader : Option Reader
  asleep : Bool
  killed : Bool

/-- A call that has returned.  It stopped in front of the character number `stop`
of those that were committed, and `eof` says whether it took out this character,
which is then an end of file. -/
structure Return (Pid : Type) where
  pid : Pid
  ticket : Nat
  target : Nat
  got : List UInt8
  value : Int
  stop : Nat
  eof : Bool
  killed : Bool
deriving DecidableEq

/-- The console and the processes.  The characters committed so far, those taken
out, the bytes delivered with the tickets of the calls, and the calls that have
returned are kept as history. -/
structure System (Pid : Type) where
  cons : Cons
  procs : Pid → Process
  committed : List UInt8
  consumed : List UInt8
  delivered : List (Nat × UInt8)
  tickets : Nat
  returns : List (Return Pid)

namespace System

variable {Pid : Type}

/-- A character arrives.  What is committed is between the old and the new `w`. -/
def input (c : UInt8) (system : System Pid) : System Pid :=
  let cons := (consoleintr c system.cons).1
  { system with
    cons := cons
    committed := system.committed ++ cons.between system.cons.w cons.w
    procs := fun pid =>
      if (consoleintr c system.cons).2 then { system.procs pid with asleep := false }
      else system.procs pid }

variable [DecidableEq Pid] (system : System Pid)

def setProc (pid : Pid) (process : Process) : System Pid :=
  { system with procs := update system.procs pid process }

/-- `sleep(&cons.r, &cons.lock)`. -/
def sleep (pid : Pid) (reader : Reader) : System Pid :=
  system.setProc pid { system.procs pid with reader := some reader, asleep := true }

/-- The call returns. -/
def leave (pid : Pid) (reader : Reader) (value : Int) (stop : Nat)
    (eof killed : Bool) : System Pid :=
  { system with
    returns := system.returns ++
      [⟨pid, reader.ticket, reader.target, reader.got, value, stop, eof, killed⟩] }

/-- A character is taken out for good. -/
def consume (c : UInt8) : System Pid :=
  { system with consumed := system.consumed ++ [c] }

/-- A byte is stored in the destination of a call. -/
def deliver (ticket : Nat) (c : UInt8) : System Pid :=
  { system with delivered := system.delivered ++ [(ticket, c)] }

end System

section

variable {Pid : Type} [DecidableEq Pid]

/-- The loop of `consoleread` with `n` bytes to go. -/
def consolereadFrom (pid : Pid) : (n : Nat) → Reader → System Pid → System Pid
  | 0, reader, system =>
    system.leave pid reader (reader.target - (0 : Nat)) system.consumed.length false false
  | n + 1, reader, system =>
    if system.cons.r = system.cons.w then
      if (system.procs pid).killed then
        system.leave pid reader (-1) system.consumed.length false true
      else system.sleep pid { reader with n := n + 1 }
    else
      let c := system.cons.buf (system.cons.r.toNat % INPUT_BUF)
      let cons := { system.cons with r := system.cons.r + 1 }
      if c = C 'D' then
        if n + 1 < reader.target then
          { system with cons := { cons with r := cons.r - 1 } }.leave pid reader
            (reader.target - (n + 1 : Nat)) system.consumed.length false false
        else
          ({ system with cons := cons }.consume c).leave pid reader (reader.target - (n + 1 : Nat))
            system.consumed.length true false
      else if reader.dst (reader.target - (n + 1)) = false then
        ({ system with cons := cons }.consume c).leave pid reader (reader.target - (n + 1 : Nat))
          system.consumed.length false false
      else
        let stored := { reader with got := reader.got ++ [c] }
        let after := ({ system with cons := cons }.consume c).deliver reader.ticket c
        if c = newline then
          after.leave pid stored (reader.target - (n : Nat)) after.consumed.length false false
        else consolereadFrom pid n stored after

/-- `consoleread`. -/
def consoleread (pid : Pid) (dst : Nat → Bool) (n : Int) (system : System Pid) : System Pid :=
  consolereadFrom pid n.toNat ⟨system.tickets, dst, n.toNat, n.toNat, []⟩
    { system with tickets := system.tickets + 1 }

/-- A character is typed, a process reads, a process that is not asleep runs on, or a
process is killed. -/
inductive Action (Pid : Type) where
  | input (c : UInt8)
  | read (pid : Pid) (dst : Nat → Bool) (n : Int)
  | run (pid : Pid)
  | kill (pid : Pid)

def step (system : System Pid) : Action Pid → Outcome Panic (System Pid)
  | .input c => .next (system.input c)
  | .read pid dst n =>
    match (system.procs pid).reader with
    | none => .next (consoleread pid dst n system)
    | some _ => .blocked
  | .run pid =>
    match (system.procs pid).reader with
    | none => .blocked
    | some reader =>
      if (system.procs pid).asleep then .blocked
      else
        .next (consolereadFrom pid reader.n reader
          (system.setProc pid { system.procs pid with reader := none }))
  | .kill pid =>
    .next (system.setProc pid { system.procs pid with asleep := false, killed := true })

/-- The console after `consoleinit`. -/
def consoleinit (buf : Nat → UInt8) : System Pid where
  cons := ⟨buf, 0, 0, 0⟩
  procs := fun _ => ⟨none, false, false⟩
  committed := []
  consumed := []
  delivered := []
  tickets := 0
  returns := []

end

/-! ## The invariant -/

/-- The bytes that were delivered to a call. -/
def bytesOf (delivered : List (Nat × UInt8)) (ticket : Nat) : List UInt8 :=
  (delivered.filter (·.1 = ticket)).map Prod.snd

variable {ticket stop : Nat} {value : Int} {killed : Bool}

section

variable {Pid : Type}

/-- The local variables of a call with `n` bytes to go. -/
structure Reader.Fits (system : System Pid) (reader : Reader) (n : Nat) : Prop where
  issued : reader.ticket < system.tickets
  count : reader.got.length + n = reader.target
  got : reader.got = bytesOf system.delivered reader.ticket
  line : newline ∉ reader.got
  mapped : ∀ k, k < reader.target → reader.dst k = true

/-- What is known of a call that has returned. -/
structure Return.Ended (system : System Pid) (call : Return Pid) : Prop where
  issued : call.ticket < system.tickets
  got : call.got = bytesOf system.delivered call.ticket
  line : newline ∉ call.got.dropLast
  length : call.got.length ≤ call.target
  value : call.killed = false → call.value = call.got.length
  ends : call.killed = false → call.got.length = call.target ∨
    call.got.getLast? = some newline ∨ system.committed[call.stop]? = some (C 'D')
  eof : call.eof = true → call.got = []

/-- No other call has the ticket. -/
structure Alone (system : System Pid) (ticket : Nat) : Prop where
  readers : ∀ pid reader, (system.procs pid).reader = some reader → reader.ticket ≠ ticket
  returns : ∀ call ∈ system.returns, call.ticket ≠ ticket

/-- The buffer is in order, the histories agree with it, and nobody sleeps while
there is something to read. -/
structure Books (system : System Pid) : Prop where
  ok : system.cons.Ok
  committed : system.committed = system.consumed ++ system.cons.readable
  delivered : system.delivered.map Prod.snd = system.consumed.filter (· ≠ C 'D')
  issued : ∀ entry ∈ system.delivered, entry.1 < system.tickets
  asleep : ∀ pid, (system.procs pid).asleep = true → system.cons.readable = []
  readers : ∀ pid reader, (system.procs pid).reader = some reader → reader.Fits system reader.n
  distinct : ∀ pid other reader reader', (system.procs pid).reader = some reader →
    (system.procs other).reader = some reader' → reader.ticket = reader'.ticket → pid = other
  returned : ∀ call ∈ system.returns, call.Ended system ∧
    ∀ pid reader, (system.procs pid).reader = some reader → reader.ticket ≠ call.ticket

variable {system after : System Pid} {pid : Pid} {reader : Reader} {n : Nat}

theorem bytesOf_append (delivered : List (Nat × UInt8)) (ticket other : Nat) (c : UInt8) :
    bytesOf (delivered ++ [(ticket, c)]) other =
      bytesOf delivered other ++ if ticket = other then [c] else [] := by
  by_cases same : ticket = other
  · simp [bytesOf, same]
  · simp [bytesOf, same]

variable {delivered : List (Nat × UInt8)}

theorem bytesOf_of_ne {other : Nat} (c : UInt8) (different : other ≠ ticket) :
    bytesOf (delivered ++ [(ticket, c)]) other = bytesOf delivered other := by
  rw [bytesOf_append, if_neg different.symm, List.append_nil]

theorem Reader.Fits.congr (fits : reader.Fits system n) (tickets : system.tickets ≤ after.tickets)
    (got : bytesOf after.delivered reader.ticket = bytesOf system.delivered reader.ticket) :
    reader.Fits after n :=
  ⟨Nat.lt_of_lt_of_le fits.issued tickets, fits.count, fits.got.trans got.symm, fits.line,
    fits.mapped⟩

theorem Return.Ended.congr {call : Return Pid} (ended : call.Ended system)
    (tickets : system.tickets ≤ after.tickets)
    (got : bytesOf after.delivered call.ticket = bytesOf system.delivered call.ticket)
    (committed : system.committed <+: after.committed) : call.Ended after where
  issued := Nat.lt_of_lt_of_le ended.issued tickets
  got := ended.got.trans got.symm
  line := ended.line
  length := ended.length
  value := ended.value
  ends := by
    intro alive
    rcases ended.ends alive with all | last | isEof
    · exact Or.inl all
    · exact Or.inr (Or.inl last)
    · right
      right
      rcases committed with ⟨more, isMore⟩
      have inside : call.stop < system.committed.length := (List.getElem?_eq_some_iff.mp isEof).1
      rw [← isMore, List.getElem?_append_left inside]
      exact isEof
  eof := ended.eof

/-! ## Typing -/

theorem Books.input (books : Books system) (c : UInt8) : Books (system.input c) := by
  have typed := consoleintr_typed books.ok c
  have sameReader : ∀ pid, ((system.input c).procs pid).reader = (system.procs pid).reader := by
    intro pid
    simp only [System.input]
    split
    · rfl
    · rfl
  have committed : system.committed <+: (system.input c).committed := List.prefix_append ..
  constructor
  · exact typed.ok
  · show system.committed ++ _ = system.consumed ++ (consoleintr c system.cons).1.readable
    rw [typed.committed, ← List.append_assoc, ← books.committed]
  · exact books.delivered
  · exact books.issued
  · intro pid isAsleep
    simp only [System.input] at isAsleep
    split at isAsleep
    · cases isAsleep
    · rename_i quiet
      exact (typed.quiet (Bool.eq_false_iff.mpr quiet)).trans (books.asleep pid isAsleep)
  · intro pid reader isReader
    rw [sameReader] at isReader
    exact (books.readers pid reader isReader).congr (Nat.le_refl _) rfl
  · intro pid other reader reader' first second
    rw [sameReader] at first second
    exact books.distinct pid other reader reader' first second
  · intro call isCall
    rcases books.returned call isCall with ⟨ended, apart⟩
    refine ⟨ended.congr (Nat.le_refl _) rfl committed, ?_⟩
    intro pid reader isReader
    rw [sameReader] at isReader
    exact apart pid reader isReader

/-! ## Reading -/

/-- A call is running: it is not among those that sleep or have returned. -/
structure Running (system : System Pid) (pid : Pid) (reader : Reader) (n : Nat) : Prop where
  fits : reader.Fits system n
  alone : Alone system reader.ticket
  reader : (system.procs pid).reader = none

variable [DecidableEq Pid]

/-- The character that is read next. -/
def System.char (system : System Pid) : UInt8 :=
  system.cons.buf (system.cons.r.toNat % INPUT_BUF)

omit [DecidableEq Pid] in
theorem Books.getElem?_committed (books : Books system) (some : system.cons.r ≠ system.cons.w) :
    system.committed[system.consumed.length]? = Option.some system.char := by
  rw [books.committed, (books.ok.take some).2, List.getElem?_append_right (Nat.le_refl _),
    Nat.sub_self]
  rfl

omit [DecidableEq Pid] in
/-- A character is taken out.  The calls that sleep or have returned get nothing of
it. -/
theorem Books.take (books : Books system) (some : system.cons.r ≠ system.cons.w)
    (all : delivered.map Prod.snd = (system.consumed ++ [system.char]).filter (· ≠ C 'D'))
    (issued : ∀ entry ∈ delivered, entry.1 < system.tickets)
    (readers : ∀ pid reader, (system.procs pid).reader = Option.some reader →
      bytesOf delivered reader.ticket = bytesOf system.delivered reader.ticket)
    (returns : ∀ call ∈ system.returns,
      bytesOf delivered call.ticket = bytesOf system.delivered call.ticket) :
    Books { system with
      cons := { system.cons with r := system.cons.r + 1 }
      consumed := system.consumed ++ [system.char]
      delivered := delivered } := by
  rcases books.ok.take some with ⟨ok, head⟩
  constructor
  · exact ok
  · show system.committed = system.consumed ++ [system.char] ++ _
    rw [books.committed, head, List.append_assoc]
    rfl
  · exact all
  · exact issued
  · intro pid isAsleep
    have nothing := books.asleep pid isAsleep
    rw [head] at nothing
    cases nothing
  · intro pid reader isReader
    exact (books.readers pid reader isReader).congr (Nat.le_refl _) (readers pid reader isReader)
  · exact books.distinct
  · intro call isCall
    rcases books.returned call isCall with ⟨ended, apart⟩
    exact ⟨ended.congr (Nat.le_refl _) (returns call isCall) (List.prefix_refl _), apart⟩

omit [DecidableEq Pid] in
/-- A call returns. -/
theorem Books.leave (books : Books system) (alone : Alone system reader.ticket) {eof : Bool}
    (ended : Return.Ended system
      ⟨pid, reader.ticket, reader.target, reader.got, value, stop, eof, killed⟩) :
    Books (system.leave pid reader value stop eof killed) := by
  refine ⟨books.ok, books.committed, books.delivered, books.issued, books.asleep, ?_, books.distinct,
    ?_⟩
  · intro other reader' isReader
    exact (books.readers other reader' isReader).congr (Nat.le_refl _) rfl
  · intro call isCall
    rcases List.mem_append.mp isCall with before | isNew
    · rcases books.returned call before with ⟨ended', apart⟩
      exact ⟨ended'.congr (Nat.le_refl _) rfl (List.prefix_refl _), apart⟩
    · rw [List.mem_singleton.mp isNew]
      exact ⟨ended.congr (Nat.le_refl _) rfl (List.prefix_refl _), alone.readers⟩

/-- A call sleeps because there is nothing to read. -/
theorem Books.sleep (books : Books system) (running : Running system pid reader n)
    (nothing : system.cons.readable = []) :
    Books (system.sleep pid { reader with n := n }) := by
  have table : ∀ other, (system.sleep pid { reader with n := n }).procs other =
      if other = pid then { system.procs pid with reader := some { reader with n := n }, asleep := true }
      else system.procs other := by
    intro other
    by_cases isPid : other = pid
    · rw [isPid, if_pos rfl]
      exact update_self ..
    · rw [if_neg isPid]
      exact update_of_ne isPid ..
  constructor
  · exact books.ok
  · exact books.committed
  · exact books.delivered
  · exact books.issued
  · exact fun _ _ => nothing
  · intro other reader' isReader
    rw [table] at isReader
    by_cases isPid : other = pid
    · rw [if_pos isPid] at isReader
      cases isReader
      exact ⟨running.fits.issued, running.fits.count, running.fits.got, running.fits.line,
        running.fits.mapped⟩
    · rw [if_neg isPid] at isReader
      exact (books.readers other reader' isReader).congr (Nat.le_refl _) rfl
  · intro first second reader' reader'' isFirst isSecond same
    rw [table] at isFirst isSecond
    by_cases firstPid : first = pid
    · by_cases secondPid : second = pid
      · exact firstPid.trans secondPid.symm
      · rw [if_pos firstPid] at isFirst
        rw [if_neg secondPid] at isSecond
        cases isFirst
        exact absurd same.symm (running.alone.readers second reader'' isSecond)
    · by_cases secondPid : second = pid
      · rw [if_neg firstPid] at isFirst
        rw [if_pos secondPid] at isSecond
        cases isSecond
        exact absurd same (running.alone.readers first reader' isFirst)
      · rw [if_neg firstPid] at isFirst
        rw [if_neg secondPid] at isSecond
        exact books.distinct first second reader' reader'' isFirst isSecond same
  · intro call isCall
    rcases books.returned call isCall with ⟨ended, apart⟩
    refine ⟨ended.congr (Nat.le_refl _) rfl (List.prefix_refl _), ?_⟩
    intro other reader' isReader
    rw [table] at isReader
    by_cases isPid : other = pid
    · rw [if_pos isPid] at isReader
      cases isReader
      exact (running.alone.returns call isCall).symm
    · rw [if_neg isPid] at isReader
      exact apart other reader' isReader

omit [DecidableEq Pid] in
/-- What a call that has not met a newline leaves behind. -/
theorem Reader.Fits.ended (fits : reader.Fits system n)
    {eof : Bool} (isValue : killed = false → value = reader.target - (n : Int))
    (ends : killed = false → n = 0 ∨ system.committed[stop]? = some (C 'D'))
    (isEof : eof = true → reader.target ≤ n) :
    Return.Ended system ⟨pid, reader.ticket, reader.target, reader.got, value, stop, eof, killed⟩ := by
  have count := fits.count
  refine ⟨fits.issued, fits.got, ?_, ?_, ?_, ?_, ?_⟩
  · exact fun isMember => fits.line (List.dropLast_subset _ isMember)
  · show reader.got.length ≤ reader.target
    omega
  · intro alive
    show value = reader.got.length
    rw [isValue alive]
    omega
  · intro alive
    rcases ends alive with done | atEof
    · left
      show reader.got.length = reader.target
      omega
    · exact Or.inr (Or.inr atEof)
  · intro taken
    have atMost := isEof taken
    have nothing : reader.got.length = 0 := by omega
    exact List.eq_nil_of_length_eq_zero nothing

omit [DecidableEq Pid] in
/-- A byte is delivered to the call that is running. -/
theorem Books.deliver (books : Books system) (running : Running system pid reader (n + 1))
    (some : system.cons.r ≠ system.cons.w) (notEof : system.char ≠ C 'D') :
    let stored := { reader with got := reader.got ++ [system.char] }
    let after := ({ system with cons := { system.cons with r := system.cons.r + 1 } }.consume
      system.char).deliver reader.ticket system.char
    Books after ∧ Alone after stored.ticket ∧ (after.procs pid).reader = none ∧
      stored.ticket < after.tickets ∧ stored.got.length + n = stored.target ∧
      stored.got = bytesOf after.delivered stored.ticket := by
  intro stored after
  refine ⟨?_, ?_, running.reader, running.fits.issued, ?_, ?_⟩
  · apply books.take some
    · show (system.delivered ++ [(reader.ticket, system.char)]).map Prod.snd = _
      rw [List.map_append, books.delivered, List.filter_append]
      simp [notEof]
    · intro entry isEntry
      rcases List.mem_append.mp isEntry with before | isNew
      · exact books.issued entry before
      · rw [List.mem_singleton.mp isNew]
        exact running.fits.issued
    · intro other reader' isReader
      exact bytesOf_of_ne _ (running.alone.readers other reader' isReader)
    · intro call isCall
      exact bytesOf_of_ne _ (running.alone.returns call isCall)
  · exact ⟨running.alone.readers, running.alone.returns⟩
  · have count := running.fits.count
    show (reader.got ++ [system.char]).length + n = reader.target
    rw [List.length_append, List.length_singleton]
    omega
  · show reader.got ++ [system.char] = bytesOf (system.delivered ++ [_]) reader.ticket
    rw [bytesOf_append, if_pos rfl, ← running.fits.got]

theorem Books.consolereadFrom (books : Books system) (running : Running system pid reader n) :
    Books (consolereadFrom pid n reader system) := by
  induction n generalizing system reader with
  | zero =>
    apply books.leave running.alone
    apply running.fits.ended
    · intro _
      rfl
    · intro _
      exact Or.inl rfl
    · intro impossible
      cases impossible
  | succ n ih =>
    rw [Input.consolereadFrom]
    split
    · rename_i empty
      split
      · apply books.leave running.alone
        apply running.fits.ended
        · intro impossible
          cases impossible
        · intro impossible
          cases impossible
        · intro impossible
          cases impossible
      · apply books.sleep running
        rw [Cons.readable, empty, between_self]
    · rename_i some
      have isChar : system.cons.buf (system.cons.r.toNat % INPUT_BUF) = system.char := rfl
      simp only [isChar]
      split
      · rename_i isEof
        split
        · rw [BitVec.add_sub_cancel]
          apply books.leave running.alone
          apply running.fits.ended
          · intro _
            rfl
          · intro _
            rw [books.getElem?_committed some, isEof]
            exact Or.inr rfl
          · intro impossible
            cases impossible
        · rename_i first
          have taken : Books ({ system with
              cons := { system.cons with r := system.cons.r + 1 } }.consume system.char) := by
            apply books.take some
            · show system.delivered.map Prod.snd = _
              rw [books.delivered, List.filter_append]
              simp [isEof]
            · exact books.issued
            · exact fun _ _ _ => rfl
            · exact fun _ _ => rfl
          have fits : reader.Fits ({ system with
              cons := { system.cons with r := system.cons.r + 1 } }.consume system.char) (n + 1) :=
            running.fits.congr (Nat.le_refl _) rfl
          apply taken.leave ⟨running.alone.readers, running.alone.returns⟩
          apply fits.ended
          · intro _
            rfl
          · intro _
            right
            exact (books.getElem?_committed some).trans (congrArg Option.some isEof)
          · intro _
            omega
      · rename_i notEof
        have inside : reader.target - (n + 1) < reader.target := by
          have count := running.fits.count
          omega
        rw [if_neg (by rw [running.fits.mapped _ inside]; exact Bool.false_ne_true.symm)]
        rcases books.deliver running some notEof with ⟨delivered, alone, notListed, issued, count, got⟩
        split
        · rename_i isNewline
          apply delivered.leave alone
          refine ⟨issued, got, ?_, ?_, ?_, ?_, ?_⟩
          · show newline ∉ (reader.got ++ [system.char]).dropLast
            rw [List.dropLast_concat]
            exact running.fits.line
          · exact Nat.le_of_add_right_le (Nat.le_of_eq count)
          · intro _
            show (reader.target : Int) - n = (reader.got ++ [system.char]).length
            have total : (reader.got ++ [system.char]).length + n = reader.target := count
            omega
          · intro _
            right
            left
            show (reader.got ++ [system.char]).getLast? = _
            rw [List.getLast?_concat, isNewline]
          · intro impossible
            cases impossible
        · rename_i notNewline
          apply ih delivered
          refine ⟨⟨issued, count, got, ?_, running.fits.mapped⟩, alone, notListed⟩
          show newline ∉ reader.got ++ [system.char]
          intro isMember
          rcases List.mem_append.mp isMember with before | isNew
          · exact running.fits.line before
          · exact notNewline (List.mem_singleton.mp isNew).symm

/-- Every end of file that was taken out belongs to a call that says so. -/
def Counted (system : System Pid) : Prop :=
  system.consumed.count (C 'D') = (system.returns.filter (·.eof)).length

section

omit [DecidableEq Pid]

theorem Counted.leave (counted : Counted system) (reader : Reader) (value : Int) (stop : Nat)
    (killed : Bool) : Counted (system.leave pid reader value stop false killed) := by
  show _ = ((system.returns ++ [_]).filter _).length
  rw [List.filter_append, List.length_append]
  exact counted

theorem Counted.consume (counted : Counted system) (cons : Cons) {c : UInt8} (notEof : c ≠ C 'D') :
    Counted ({ system with cons := cons }.consume c) := by
  show (system.consumed ++ [c]).count _ = _
  rw [List.count_append, List.count_singleton, beq_false_of_ne notEof]
  exact counted

theorem Counted.deliver (counted : Counted system) (ticket : Nat) (c : UInt8) :
    Counted (system.deliver ticket c) :=
  counted

end

theorem Counted.consolereadFrom (counted : Counted system) (reader : Reader) (n : Nat) :
    Counted (consolereadFrom pid n reader system) := by
  induction n generalizing system reader with
  | zero => exact counted.leave ..
  | succ n ih =>
    rw [Input.consolereadFrom]
    split
    · split
      · exact counted.leave ..
      · exact counted
    · simp only
      split
      · rename_i isEof
        split
        · exact Counted.leave counted ..
        · show (system.consumed ++ [_]).count _ = ((system.returns ++ [_]).filter _).length
          rw [List.count_append, List.filter_append, List.length_append, isEof, counted]
          rfl
      · rename_i notEof
        have consumed := counted.consume { system.cons with r := system.cons.r + 1 } notEof
        split
        · exact consumed.leave ..
        · have delivered := consumed.deliver reader.ticket
            (system.cons.buf (system.cons.r.toNat % INPUT_BUF))
          split
          · exact delivered.leave ..
          · exact ih delivered _

/-! ## Runs -/

/-- The destinations of all reads can be written. -/
def Mapped : Action Pid → Prop
  | .read _ dst n => ∀ k, k < n.toNat → dst k = true
  | .input _ | .run _ | .kill _ => True

instance : (action : Action Pid) → Decidable (Mapped action)
  | .read _ dst n => inferInstanceAs (Decidable (∀ k, k < n.toNat → dst k = true))
  | .input _ | .run _ | .kill _ => .isTrue trivial

omit [DecidableEq Pid] in
theorem bytesOf_of_issued
    (issued : ∀ entry ∈ delivered, entry.1 < ticket) : bytesOf delivered ticket = [] := by
  rw [bytesOf, List.map_eq_nil_iff, List.filter_eq_nil_iff]
  intro entry isEntry same
  have below := issued entry isEntry
  rw [of_decide_eq_true same] at below
  exact Nat.lt_irrefl _ below

theorem Books.consoleread (books : Books system) {dst : Nat → Bool} {n : Int}
    (mapped : ∀ k, k < n.toNat → dst k = true) (outside : (system.procs pid).reader = none) :
    Books (consoleread pid dst n system) := by
  have started : Books { system with tickets := system.tickets + 1 } := by
    refine ⟨books.ok, books.committed, books.delivered, ?_, books.asleep, ?_, books.distinct, ?_⟩
    · intro entry isEntry
      exact Nat.lt_succ_of_lt (books.issued entry isEntry)
    · intro other reader isReader
      exact (books.readers other reader isReader).congr (Nat.le_succ _) rfl
    · intro call isCall
      rcases books.returned call isCall with ⟨ended, apart⟩
      exact ⟨ended.congr (Nat.le_succ _) rfl (List.prefix_refl _), apart⟩
  apply started.consolereadFrom
  refine ⟨⟨Nat.lt_succ_self _, Nat.zero_add _, ?_, List.not_mem_nil, mapped⟩, ⟨?_, ?_⟩, outside⟩
  · exact (bytesOf_of_issued books.issued).symm
  · intro other reader isReader
    exact Nat.ne_of_lt (books.readers other reader isReader).issued
  · intro call isCall
    exact Nat.ne_of_lt (books.returned call isCall).1.issued

theorem Books.setProc (books : Books system) {process : Process}
    (asleep : process.asleep = true → (system.procs pid).asleep = true)
    (reader : ∀ reader, process.reader = some reader → (system.procs pid).reader = some reader) :
    Books (system.setProc pid process) := by
  have table : ∀ other reader, ((system.setProc pid process).procs other).reader = some reader →
      (system.procs other).reader = some reader := by
    intro other reader' isReader
    by_cases isPid : other = pid
    · rw [isPid] at isReader ⊢
      change (update system.procs pid process pid).reader = _ at isReader
      rw [update_self] at isReader
      exact reader reader' isReader
    · change (update system.procs pid process other).reader = _ at isReader
      rw [update_of_ne isPid] at isReader
      exact isReader
  constructor
  · exact books.ok
  · exact books.committed
  · exact books.delivered
  · exact books.issued
  · intro other isAsleep
    change (update system.procs pid process other).asleep = true at isAsleep
    by_cases isPid : other = pid
    · rw [isPid, update_self] at isAsleep
      exact books.asleep pid (asleep isAsleep)
    · rw [update_of_ne isPid] at isAsleep
      exact books.asleep other isAsleep
  · intro other reader' isReader
    exact (books.readers other reader' (table other reader' isReader)).congr (Nat.le_refl _) rfl
  · intro first second reader' reader'' isFirst isSecond
    exact books.distinct first second reader' reader'' (table _ _ isFirst) (table _ _ isSecond)
  · intro call isCall
    rcases books.returned call isCall with ⟨ended, apart⟩
    refine ⟨ended.congr (Nat.le_refl _) rfl (List.prefix_refl _), ?_⟩
    intro other reader' isReader
    exact apart other reader' (table other reader' isReader)

/-- A call that was woken goes on. -/
theorem Books.run (books : Books system) (isReader : (system.procs pid).reader = some reader) :
    Books (Input.consolereadFrom pid reader.n reader
      (system.setProc pid { system.procs pid with reader := none })) := by
  have detached : Books (system.setProc pid { system.procs pid with reader := none }) := by
    apply books.setProc
    · exact id
    · intro reader' impossible
      cases impossible
  apply detached.consolereadFrom
  refine ⟨(books.readers pid reader isReader).congr (Nat.le_refl _) rfl, ⟨?_, ?_⟩, ?_⟩
  · intro other reader' isReader' same
    change (update system.procs pid _ other).reader = _ at isReader'
    by_cases isPid : other = pid
    · rw [isPid, update_self] at isReader'
      cases isReader'
    · rw [update_of_ne isPid] at isReader'
      exact isPid (books.distinct other pid reader' reader isReader' isReader same)
  · intro call isCall
    exact ((books.returned call isCall).2 pid reader isReader).symm
  · change (update system.procs pid _ pid).reader = none
    rw [update_self]

theorem Books.next {action : Action Pid} (books : Books system) (mapped : Mapped action)
    (stepped : step system action = .next after) : Books after := by
  cases action with
  | input c =>
    cases stepped
    exact books.input c
  | read pid dst n =>
    simp only [step] at stepped
    split at stepped
    · rename_i outside
      cases stepped
      exact books.consoleread mapped outside
    · cases stepped
  | run pid =>
    simp only [step] at stepped
    split at stepped
    · cases stepped
    · rename_i reader isReader
      split at stepped
      · cases stepped
      · cases stepped
        exact books.run isReader
  | kill pid =>
    cases stepped
    apply books.setProc
    · intro impossible
      cases impossible
    · exact fun _ => id

theorem Counted.next {action : Action Pid} (counted : Counted system)
    (stepped : step system action = .next after) : Counted after := by
  cases action with
  | input c | kill pid =>
    cases stepped
    exact counted
  | read pid dst n =>
    simp only [step] at stepped
    split at stepped
    · cases stepped
      have started : Counted { system with tickets := system.tickets + 1 } := counted
      exact started.consolereadFrom ..
    · cases stepped
  | run pid =>
    simp only [step] at stepped
    split at stepped
    · cases stepped
    · split at stepped
      · cases stepped
      · cases stepped
        have detached : Counted (system.setProc pid { system.procs pid with reader := none }) :=
          counted
        exact detached.consolereadFrom ..

omit [DecidableEq Pid] in
theorem books_consoleinit (buf : Nat → UInt8) : Books (consoleinit buf : System Pid) := by
  have empty : (consoleinit buf : System Pid).cons.readable = [] := between_self ..
  constructor
  · have noneYet : (0 - 0 : BitVec 32).toNat ≤ INPUT_BUF := by decide
    refine ⟨Nat.le_refl _, noneYet, fun _ => rfl, ?_⟩
    intro c isEdited
    have nothing : (consoleinit buf : System Pid).cons.editing = [] := between_self ..
    rw [nothing] at isEdited
    cases isEdited
  · rw [empty]
    rfl
  · rfl
  · intro entry impossible
    cases impossible
  · exact fun _ _ => empty
  · intro pid reader impossible
    cases impossible
  · intro pid other reader reader' impossible
    cases impossible
  · intro call impossible
    cases impossible

/-- The line discipline of the console.  The counters are in order, and a full
buffer can be read.  A character does to the line what `Line.input` says, and this
is what is committed; editing does not touch what is committed.  The bytes that
were delivered are the first of those committed, without the ends of file.  A read
that is not killed returns what it has stored, and stops behind a newline, when it
has all its bytes, or in front of an end of file; only a read of nothing takes
this one out. -/
theorem line_discipline {buf : Nat → UInt8} {schedule : List (Action Pid)} {final : System Pid}
    (mapped : ∀ action ∈ schedule, Mapped action)
    (reached : exec step (consoleinit buf) schedule = .next final) :
    ((final.cons.w - final.cons.r).toNat ≤ (final.cons.e - final.cons.r).toNat ∧
      (final.cons.e - final.cons.r).toNat ≤ INPUT_BUF) ∧
    (final.cons.e = final.cons.r + BitVec.ofNat 32 INPUT_BUF →
      final.cons.w = final.cons.e ∧ ∀ pid, (final.procs pid).asleep = false) ∧
    (∀ c, c = C 'H' ∨ c = 127 ∨ c = C 'U' →
      (final.input c).cons.r = final.cons.r ∧ (final.input c).cons.readable = final.cons.readable ∧
      (final.input c).committed = final.committed) ∧
    final.delivered.map Prod.snd <+: final.committed.filter (· ≠ C 'D') ∧
    (∀ call ∈ final.returns, call.got = bytesOf final.delivered call.ticket ∧
      newline ∉ call.got.dropLast ∧ (call.eof = true → call.got = []) ∧
      (call.killed = false → call.value = call.got.length ∧
        (call.got.length = call.target ∨ call.got.getLast? = some newline ∨
          final.committed[call.stop]? = some (C 'D')))) ∧
    final.consumed.count (C 'D') = (final.returns.filter (·.eof)).length ∧
    ∀ c, (final.input c).cons.line = final.cons.line.input c ∧
      (final.input c).committed = final.consumed ++ (final.cons.line.input c).readable := by
  have meets : Meets step (fun _ => Mapped) (consoleinit buf) schedule := by
    apply meets_of_forall
    intro before action later middle isSchedule _
    apply mapped
    rw [isSchedule]
    exact List.mem_append_right _ List.mem_cons_self
  have books : Books final := exec_invariant Books (fun _ _ _ => Books.next)
    (books_consoleinit buf) meets reached
  have noneYet : Counted (consoleinit buf : System Pid) := rfl
  have counted : Counted final :=
    exec_invariant' Counted (fun _ _ _ => Counted.next) noneYet reached
  refine ⟨⟨books.ok.ordered, books.ok.bounded⟩, ?_, ?_, ?_, ?_, counted, ?_⟩
  · intro isFull
    have small : INPUT_BUF < 2 ^ 32 := by decide
    have full : (Circular.mk final.cons.buf final.cons.r final.cons.e).count = INPUT_BUF :=
      (Circular.count_eq_capacity_iff small).mpr isFull
    have same := books.ok.full full
    refine ⟨same, ?_⟩
    intro pid
    apply Bool.eq_false_iff.mpr
    intro isAsleep
    have nothing := congrArg List.length (books.asleep pid isAsleep)
    rw [Cons.readable, length_between, same] at nothing
    rw [Circular.count, nothing] at full
    cases full
  · intro c isErase
    have typed := consoleintr_typed books.ok c
    have readable : (consoleintr c final.cons).1.readable = final.cons.readable := by
      have line := congrArg Line.readable typed.line
      rw [Line.readable_input_of_erase isErase] at line
      exact line
    refine ⟨typed.r, readable, ?_⟩
    have nothing := typed.committed
    rw [readable] at nothing
    show final.committed ++ _ = final.committed
    rw [List.self_eq_append_right.mp nothing, List.append_nil]
  · rw [books.delivered, books.committed, List.filter_append]
    exact List.prefix_append ..
  · intro call isCall
    rcases books.returned call isCall with ⟨ended, _⟩
    exact ⟨ended.got, ended.line, ended.eof, fun alive => ⟨ended.value alive, ended.ends alive⟩⟩
  · intro c
    have typed := consoleintr_typed books.ok c
    refine ⟨typed.line, ?_⟩
    rw [(books.input c).committed, ← typed.line]
    rfl

end

/-- A process waits for a line, which is typed with one mistake, and another process
reads an end of file. -/
def typeLine : List (Action (Fin 2)) :=
  [.read 0 (fun _ => true) 10, .input 104, .input 120, .input 127, .input 105, .input 13, .run 0,
   .input (C 'D'), .read 1 (fun _ => true) 5]

theorem line_discipline_typeLine : ∃ final,
    exec step (consoleinit fun _ => 0) typeLine = .next final ∧
      final.delivered = [(0, 104), (0, 105), (0, newline)] ∧
      final.delivered.map Prod.snd <+: final.committed.filter (· ≠ C 'D') ∧
      final.consumed.count (C 'D') = 1 := by
  have ran : ∃ final, exec step (consoleinit fun _ => 0) typeLine = .next final ∧
      final.delivered = [(0, 104), (0, 105), (0, newline)] ∧
      (final.returns.filter (·.eof)).length = 1 := by
    decide +kernel
  rcases ran with ⟨final, reached, isDelivered, once⟩
  have holds := line_discipline (by decide) reached
  exact ⟨final, reached, isDelivered, holds.2.2.2.1, holds.2.2.2.2.2.1.trans once⟩

end Input
end Console
end Xv6
