/-
A run adds to its output, and never looks at it.

What was written before a run started stays where it is, and what the run writes comes behind
it.  So the same run behind other output ends in the same way, with the same variables and the
same input left, and what it adds to the output is the same text.  Only a limit on the output
could make it end in another way, or a sink that cannot pass it on; here there is neither.
-/
import Pseudocode.Program.Run
import Pseudocode.Proofs.Judgement

namespace Pseudocode

namespace Sink

/-- A sink that takes everything and passes it on. -/
structure Open (s : Sink) : Prop where
  room : s.room = none
  flushFails : s.flushFails = false

variable {s : Sink}

theorem Open.write_eq (h : s.Open) (text : String) :
    s.write text = (none, { s with written := s.written ++ Text.toBytes text }) := by
  rw [write, writeAll, h.room]

theorem Open.write (h : s.Open) (text : String) : (s.write text).2.Open := by
  rw [h.write_eq]
  exact ⟨h.room, h.flushFails⟩

theorem Open.write_empty (h : s.Open) : (s.write "").2 = s := by
  rw [h.write_eq]
  simp [Text.toBytes]

/-- Two texts one after the other. -/
theorem Open.write_write (h : s.Open) (a b : String) :
    ((s.write a).2.write b).2 = (s.write (a ++ b)).2 := by
  have hbytes : s.written ++ Text.toBytes a ++ Text.toBytes b =
      s.written ++ Text.toBytes (a ++ b) := by
    apply Array.toList_inj.1
    simp [Text.toBytes_append]
  rw [(h.write a).write_eq, h.write_eq, h.write_eq]
  exact congrArg (fun written => { s with written := written }) hbytes

theorem Open.flush_eq (h : s.Open) : ByteSink.flush s = (none, s) := by
  simp [ByteSink.flush, h.flushFails]

theorem open_new : ({} : Sink).Open :=
  ⟨rfl, rfl⟩

/-- What is written to a new sink is its text. -/
theorem text_write_new (text : String) : (({} : Sink).write text).2.text = text := by
  rw [open_new.write_eq, Sink.text, Text.ofCutBytes]
  simp [Text.ofBytes?_toBytes]

end Sink

namespace Run

variable {ι α β : Type}

/-- How the run ends does not depend on what was written before, and neither does the text
that it adds. -/
def Prints (x : Run ι Sink α) : Prop :=
  ∀ m, m.sink.Open → ∃ text, ∀ sink, sink.Open →
    x (m.withSink sink) = onFinal (·.withSink (sink.write text).2) (x m)

/-- The text that a run adds is behind what was written before it. -/
theorem sink_final {x : Run ι Sink α} {m : Machine ι Sink} {sink : Sink}
    (h : x (m.withSink m.sink) = onFinal (·.withSink sink) (x m)) : (final (x m)).sink = sink := by
  replace h : x m = onFinal (·.withSink sink) (x m) := h
  rw [h]
  cases x m <;> rfl

namespace Prints

/-- A run that passes its sink on as it is. -/
theorem of_silent {x : Run ι Sink α}
    (h : ∀ m sink, x (m.withSink sink) = onFinal (·.withSink sink) (x m)) : Prints x := by
  intro m _
  refine ⟨"", fun sink hsink => ?_⟩
  rw [h m sink, hsink.write_empty]

theorem of_onStore {x : Run ι Sink α} (h : x.OnStore) : Prints x :=
  of_silent h.sink

theorem bind {x : Run ι Sink α} {f : α → Run ι Sink β} (hx : Prints x) (hf : ∀ a, Prints (f a)) :
    Prints (x >>= f) := by
  intro m hm
  obtain ⟨text, hsame⟩ := hx m hm
  have hsink := sink_final (hsame m.sink hm)
  change ∃ text, ∀ sink, sink.Open → EStateM.bind x f (m.withSink sink) =
    onFinal (·.withSink (sink.write text).2) (EStateM.bind x f m)
  unfold EStateM.bind
  cases hres : x m with
  | ok a m' =>
      rw [hres] at hsink hsame
      replace hsink : m'.sink = (m.sink.write text).2 := hsink
      obtain ⟨text', hsame'⟩ := hf a m' (hsink ▸ hm.write text)
      refine ⟨text ++ text', fun sink hsink => ?_⟩
      rw [hsame sink hsink, ← hsink.write_write]
      exact hsame' _ (hsink.write text)
  | error why m' =>
      rw [hres] at hsame
      refine ⟨text, fun sink hsink => ?_⟩
      rw [hsame sink hsink]
      rfl

/-- A text is written behind what was written before. -/
theorem write (text : String) (span : Span) : Prints (ι := ι) (Run.write text span) := by
  refine bind (fun m hm => ⟨text, fun sink hsink => ?_⟩) fun answer =>
    of_onStore (.proceed span answer)
  change EStateM.Result.ok (sink.write text).1 (m.withSink (sink.write text).2) =
    .ok (m.sink.write text).1 (m.withSink (sink.write text).2)
  rw [hsink.write_eq, hm.write_eq]

theorem flush (span : Span) : Prints (ι := ι) (Run.flush span) := by
  refine bind (fun m hm => ⟨"", fun sink hsink => ?_⟩) fun answer =>
    of_onStore (.proceed span answer)
  change EStateM.Result.ok (ByteSink.flush sink).1 (m.withSink sink) =
    .ok (ByteSink.flush m.sink).1 (m.withSink (sink.write "").2)
  rw [hsink.flush_eq, hm.flush_eq, hsink.write_empty]

theorem readLine [LineSource ι] (span : Span) : Prints (ι := ι) (Run.readLine span) :=
  bind (of_silent fun _ _ => rfl) fun line => of_onStore (.received span line)

end Prints

end Run

namespace Program

variable {ι : Type} [LineSource ι]

theorem exec_prints (fuel : Nat) (p : Program) : Run.Prints (ι := ι) (p.exec fuel) :=
  p.exec_of_onStore (J := fun _ x => x.Prints) .of_onStore .bind fuel
    (fun _ span text _ => .write text span) .readLine (.flush p.span)

/-- **What a program prints does not depend on what was printed before.** -/
theorem run_prints (fuel : Nat) (source : String) : Run.Prints (ι := ι) (run fuel source) :=
  .bind (.of_onStore (.inspect _)) fun p => .bind (.of_onStore (.inspect _)) fun _ =>
    p.exec_prints fuel

/-- The run behind other output, as the run without. -/
theorem run_behind (fuel : Nat) (source : String) (input : Input) :
    ∃ text, (Run.final (run fuel source (.start input))).sink = (({} : Sink).write text).2 ∧
      ∀ sink : Sink, sink.Open → run fuel source (.start input sink) =
        Run.onFinal (·.withSink (sink.write text).2) (run fuel source (.start input)) := by
  obtain ⟨text, hprints⟩ := run_prints fuel source (.start input) Sink.open_new
  exact ⟨text, Run.sink_final (hprints {} Sink.open_new), hprints⟩

end Program

end Pseudocode
