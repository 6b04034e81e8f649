/-
A full sink cuts a run short, and changes nothing else.

A run is compared with the same run on a sink that has room for some number of bytes.  Up to
the write that does not fit both go through the same steps, and the limited one stops there,
with the part of the output that fitted.  If there is no such write, the runs end alike.

The judgement has the output of the unlimited run as its measure: for two runs one after the
other the outputs are joined, and what the first one leaves of the room is the room of the
second one.
-/
import Pseudocode.Proofs.Reading

namespace Pseudocode

/-- The machine with room for no more than some bytes of output. -/
def Machine.limit (m : Machine Input Sink) (room : Nat) : Machine Input Sink :=
  m.withSink { m.sink with room := some room }

namespace Machine

variable {m m' m'' : Machine Input Sink}

/-- Between the two states of a machine without a limit some bytes were written, and perhaps
some were read. -/
structure Writes (m : Machine Input Sink) (output : List UInt8) (m' : Machine Input Sink) :
    Prop where
  room : m'.sink.room = none
  written : m'.sink.written.toList = m.sink.written.toList ++ output
  unread : m'.input.unread <:+ m.input.unread

theorem Writes.trans {a b : List UInt8} (h : m.Writes a m') (h' : m'.Writes b m'') :
    m.Writes (a ++ b) m'' :=
  ⟨h'.room, by rw [h'.written, h.written, List.append_assoc], h'.unread.trans h.unread⟩

end Machine

namespace Run

variable {α β : Type} {all : List Stmt}

/-- How a run from `m` ends when there is room for `room` bytes, if without a limit it writes
`output` and ends with `r`. -/
inductive Limited (all : List Stmt) (m : Machine Input Sink) (output : List UInt8) (room : Nat)
    (r : EStateM.Result Stop (Machine Input Sink) α) :
    EStateM.Result Stop (Machine Input Sink) α → Prop
  /-- The output fits. -/
  | fits (h : output.length ≤ room) :
      Limited all m output room r (onFinal (·.limit (room - output.length)) r)
  /-- A DISPLAY among the given statements finds the sink full. -/
  | full {items : List Item} {span : Span} {m' : Machine Input Sink} (h : room < output.length)
      (hs : .display items span ∈ all)
      (written : m'.sink.written.toList = m.sink.written.toList ++ output.take room)
      (unread : m'.input.unread <:+ m.input.unread)
      (behind : (final r).input.unread <:+ m'.input.unread) :
      Limited all m output room r
        (.error (.failed ((RunFault.device Sink.fullMessage).at span)) m')

/-- With a limit the run ends as it does without one if its output fits, and otherwise it
stops at a full sink. -/
def Truncates (all : List Stmt) (x : Run Input Sink α) : Prop :=
  ∀ m, m.sink.room = none → ∃ output, m.Writes output (final (x m)) ∧
    ∀ room, Limited all m output room (x m) (x (m.limit room))

/-- A write to a sink with a limit. -/
theorem write_limit (text : String) (span : Span) (m : Machine Input Sink) (room : Nat) :
    write text span (m.limit room) =
      if (Text.toBytes text).length ≤ room then
        .ok () ((m.withSink { m.sink with written := m.sink.written ++ Text.toBytes text }).limit
          (room - (Text.toBytes text).length))
      else
        .error (.failed ((RunFault.device Sink.fullMessage).at span)) (m.withSink
          { m.sink with
            written := m.sink.written ++ (Text.toBytes text).take room
            room := some (room - (Text.toBytes text).length) }) := by
  change (proceed span (if (Text.toBytes text).length ≤ room then none else some Sink.fullMessage) :
    Run Input Sink Unit) (m.withSink { m.sink with
      written := m.sink.written ++ (Text.toBytes text).take room
      room := some (room - (Text.toBytes text).length) }) = _
  split
  · next h =>
    rw [List.take_of_length_le h]
    rfl
  · rfl

namespace Truncates

/-- A run that does not write. -/
theorem of_silent {x : Run Input Sink α}
    (h : ∀ m, (final (x m)).sink = m.sink ∧ (final (x m)).input.unread <:+ m.input.unread ∧
      ∀ room, x (m.limit room) = onFinal (·.limit room) (x m)) : Truncates all x := by
  intro m hm
  obtain ⟨hsink, hinput, hlimit⟩ := h m
  refine ⟨[], ⟨?_, ?_, hinput⟩, fun room => ?_⟩
  · rw [hsink, hm]
  · rw [hsink, List.append_nil]
  · rw [hlimit room]
    exact .fits (Nat.zero_le room)

theorem of_onStore {x : Run Input Sink α} (h : x.OnStore) : Truncates all x := by
  refine of_silent fun m => ⟨h.final_sink m, ?_, fun room => ?_⟩
  · simp only [h.final_input, List.suffix_refl]
  · have hsink := h.final_sink m
    rw [Machine.limit, h.sink]
    cases hres : x m with
    | ok a m' | error why m' =>
        rw [hres] at hsink
        replace hsink : m'.sink = m.sink := hsink
        simp only [onFinal, Machine.limit, hsink]

theorem bind {x : Run Input Sink α} {f : α → Run Input Sink β} (hx : Truncates all x)
    (hf : ∀ a, Truncates all (f a)) : Truncates all (x >>= f) := by
  intro m hm
  obtain ⟨output, hwrites, hlimit⟩ := hx m hm
  change ∃ output, m.Writes output (final (EStateM.bind x f m)) ∧
    ∀ room, Limited all m output room (EStateM.bind x f m) (EStateM.bind x f (m.limit room))
  unfold EStateM.bind
  cases hres : x m with
  | error why m' =>
      rw [hres] at hwrites hlimit
      refine ⟨output, hwrites, fun room => ?_⟩
      have hfirst := hlimit room
      generalize x (m.limit room) = r at hfirst
      cases hfirst with
      | fits h => exact .fits h
      | full h hs written unread behind => exact .full h hs written unread behind
  | ok a m' =>
      rw [hres] at hwrites hlimit
      replace hwrites : m.Writes output m' := hwrites
      obtain ⟨output', hwrites', hlimit'⟩ := hf a m' hwrites.room
      refine ⟨output ++ output', hwrites.trans hwrites', fun room => ?_⟩
      have hfirst := hlimit room
      generalize x (m.limit room) = r at hfirst
      cases hfirst with
      | full h hs written unread behind =>
          refine .full (by rw [List.length_append]; omega) hs ?_ unread
            (hwrites'.unread.trans behind)
          rw [written, List.take_append_of_le_length (Nat.le_of_lt h)]
      | fits h =>
          -- The second run has the room that the first one leaves.
          have hsecond := hlimit' (room - output.length)
          dsimp only [onFinal]
          generalize f a (m'.limit (room - output.length)) = r at hsecond
          cases hsecond with
          | fits h' =>
              rw [Nat.sub_sub, ← List.length_append]
              exact .fits (by rw [List.length_append]; omega)
          | full h' hs written unread behind =>
              refine .full (by rw [List.length_append]; omega) hs ?_
                (unread.trans hwrites.unread) behind
              rw [written, hwrites.written, List.take_append, List.take_of_length_le h,
                List.append_assoc]

/-- A text goes out whole, or as much of it as there is room for. -/
theorem write {items : List Item} {span : Span} (hs : .display items span ∈ all) (text : String) :
    Truncates all (Run.write text span) := by
  intro m hm
  have hfree : Run.write text span m =
      .ok () (m.withSink { m.sink with written := m.sink.written ++ Text.toBytes text }) := by
    obtain ⟨store, input, written, limit, flushFails⟩ := m
    obtain rfl : limit = none := hm
    rfl
  rw [hfree]
  refine ⟨Text.toBytes text, ⟨hm, ?_, List.suffix_refl _⟩, fun room => ?_⟩
  · simp [final, Machine.withSink]
  · rw [write_limit]
    split
    · next h => exact .fits h
    · next h =>
      refine .full (Nat.lt_of_not_le h) hs ?_ (List.suffix_refl _) (List.suffix_refl _)
      simp [Machine.withSink]

theorem readLine (span : Span) : Truncates all (Run.readLine span) := by
  refine bind (of_silent fun m => ⟨rfl, ?_, fun room => rfl⟩) fun line =>
    of_onStore (.received span line)
  obtain ⟨taken, htakes, -⟩ := m.input.nextLine_takes
  exact ⟨taken, htakes.split.symm⟩

theorem flush (span : Span) : Truncates all (Run.flush span) :=
  bind (of_silent fun _ => ⟨rfl, List.suffix_refl _, fun _ => rfl⟩) fun answer =>
    of_onStore (.proceed span answer)

end Truncates

end Run

namespace Program

theorem exec_truncates (fuel : Nat) (p : Program) : Run.Truncates p.stmts (p.exec fuel) :=
  p.exec_of_onStore (J := fun _ x => Run.Truncates p.stmts x) .of_onStore .bind fuel
    (fun _ _ text hs => .write hs text) .readLine (.flush p.span)

/-- **A full sink only truncates.**  Let `output` be what a run writes on a sink without a
limit.  If there is room for it, the run with a limit ends in the same way and in the same
state.  If not, it fails at a DISPLAY with a full sink, it has written as much of `output` as
there was room for, and what it has read is the beginning of what the other run reads. -/
theorem exec_limit (fuel : Nat) (p : Program) {m : Machine Input Sink} (hm : m.sink.room = none)
    (room : Nat) :
    ∃ output,
      (Run.final (p.exec fuel m)).sink.written.toList = m.sink.written.toList ++ output ∧
      (output.length ≤ room → p.exec fuel (m.limit room) =
        Run.onFinal (·.limit (room - output.length)) (p.exec fuel m)) ∧
      (room < output.length → ∃ e m' taken more,
        p.exec fuel (m.limit room) = .error (.failed e) m' ∧
        (∃ items span, .display items span ∈ p.stmts ∧
          e.diagnostic = ⟨.runtime, span, "failed to write whole buffer"⟩) ∧
        m'.sink.written.toList = m.sink.written.toList ++ output.take room ∧
        m.input.unread = taken ++ m'.input.unread ∧
        m.input.unread = taken ++ more ++ (Run.final (p.exec fuel m)).input.unread) := by
  obtain ⟨output, hwrites, hlimit⟩ := p.exec_truncates fuel m hm
  have hroom := hlimit room
  refine ⟨output, hwrites.written, ?_⟩
  generalize p.exec fuel (m.limit room) = r at hroom
  cases hroom with
  | fits h => exact ⟨fun _ => rfl, fun hlt => absurd h (Nat.not_le_of_lt hlt)⟩
  | @full items span m' h hs written unread behind =>
      refine ⟨fun hle => absurd h (Nat.not_lt_of_le hle), fun _ => ?_⟩
      obtain ⟨taken, htaken⟩ := unread
      obtain ⟨more, hmore⟩ := behind
      refine ⟨_, m', taken, more, rfl, ⟨items, span, hs, rfl⟩, written, htaken.symm, ?_⟩
      rw [List.append_assoc, hmore, htaken]

/-- Two lines are read, and between them the first one is shown. -/
def echoing : Program where
  body :=
    [.declare .string [⟨⟨"s", ⟨2, 8, 1⟩⟩, none⟩] ⟨2, 1, 6⟩,
    .scan [⟨"s", ⟨3, 7, 1⟩⟩] ⟨3, 1, 4⟩,
    .display [.expr (.var "s" ⟨4, 10, 1⟩), .newline ⟨4, 14, 1⟩] ⟨4, 1, 7⟩,
    .scan [⟨"s", ⟨5, 7, 1⟩⟩] ⟨5, 1, 4⟩]
  span := ⟨1, 1, 5⟩

/-- Of the four bytes it shows there is room for two. -/
theorem exec_limit_echoing :
    (Run.final (echoing.exec 0 (.start (.ofText "abc\nd\n")))).sink.written =
        #[97, 98, 99, 10] ∧
      ∃ e m' taken more,
        echoing.exec 0 (Machine.limit (.start (.ofText "abc\nd\n")) 2) = .error (.failed e) m' ∧
        (∃ items span, .display items span ∈ echoing.stmts ∧
          e.diagnostic = ⟨.runtime, span, "failed to write whole buffer"⟩) ∧
        m'.sink.written.toList = [97, 98] ∧
        Text.toBytes "abc\nd\n" = taken ++ m'.input.unread ∧
        Text.toBytes "abc\nd\n" = taken ++ more ++ [] := by
  have hwritten : (Run.final (echoing.exec 0 (.start (.ofText "abc\nd\n")))).sink.written =
      #[97, 98, 99, 10] := by decide +kernel
  have hunread : (Run.final (echoing.exec 0 (.start (.ofText "abc\nd\n")))).input.unread = [] := by
    decide +kernel
  obtain ⟨output, houtput, -, hfull⟩ :=
    exec_limit 0 echoing (m := .start (.ofText "abc\nd\n")) rfl 2
  rw [hwritten] at houtput
  obtain rfl : [97, 98, 99, 10] = output := houtput
  rw [hunread] at hfull
  exact ⟨hwritten, hfull (by decide)⟩

end Program

end Pseudocode
