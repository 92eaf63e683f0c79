import Ccf.Ds.Proof.Reader

/-!
# The ring buffer is a FIFO channel

Every step of the ring buffer, by the reader or by any writer, is a step of the channel with
reservations of `Ccf.Lib.Fifo`, or no step of it, as its label shows: a reservation is the
exchange of the tail, a completion is `finish`, a take is `Reader::read` with what it hands to
its handler. The channel a ring stands for is the slots of its records (`Channel`). So every run
of the ring buffer from the reader's constructor shows a run of the channel (`ring_fifo`): the
messages handed on are those of the first reservations, in the order the tail was exchanged,
each with the type and the bytes its writer wrote, and never one behind a reservation still
open; and all along the records lie inside one buffer's size from the head, none across the end
of the buffer.

This needs a buffer of 8 bytes at least: the reader loads a whole header, and a buffer of 1, 2
or 4 bytes has none (`read_past_small_buffer`).
-/

namespace Ccf.Ringbuffer

open Circular

variable {W : Type} {c : Const}

/-- The channel a ring stands for: the slots of records that satisfy the invariant. -/
def Channel (c : Const) (s : Ring W) (q : List (W × Option (Message × List UInt8))) : Prop :=
  ∃ es, Inv c s es ∧ q = slots s es

/-- A step that the channel does not see keeps the channel. -/
theorem Channel.quiet {s s' : Ring W} {q : List (W × Option (Message × List UInt8))}
    {es : List (Entry W)} (hq : q = slots s es) (h : Inv c s' es ∧ slots s' es = slots s es) :
    ∃ q', Channel c s' q' ∧ Run.Trace Fifo.Step q [] q' :=
  ⟨q, ⟨es, h.1, by rw [hq, h.2]⟩, .refl q⟩

/-- A step that the channel sees as one step keeps the channel. -/
theorem Channel.single {s s' : Ring W} {q : List (W × Option (Message × List UInt8))}
    {es : List (Entry W)} {e : Fifo.Event W (Message × List UInt8)} (hq : q = slots s es)
    (h : Inv c s' es ∧ Fifo.Step (slots s es) e (slots s' es)) :
    ∃ q', Channel c s' q' ∧ Run.Trace Fifo.Step q [e] q' :=
  ⟨slots s' es, ⟨es, h.1, rfl⟩, .single (hq ▸ h.2)⟩

/-- A writer about to `prepare` holds no slot. -/
theorem not_mem_slots_of_start {s : Ring W} {es : List (Entry W)} (hinv : Inv c s es) {w : W}
    {m : Message} {sections : List (List UInt8)} (hw : s.writers w = .start m sections) :
    w ∉ (slots s es).map Prod.fst := by
  rw [slots_fst]
  intro hmem
  obtain ⟨e, he, hew⟩ := List.mem_filterMap.mp hmem
  exact hinv.not_mem_of_start hw e he (Entry.writer_of_msgWriter hew)

/-- **One step of the ring buffer is a step of the channel**, or none, as its label shows. -/
theorem Step.channel [DecidableEq W] (h8 : 8 ≤ c.size) {s s' : Ring W} {l : Option (Event W)}
    (hs : Step c s l s') {q : List (W × Option (Message × List UInt8))} (hq : Channel c s q) :
    ∃ q', Channel c s' q' ∧ Run.Trace Fifo.Step q (l.map Event.toFifo).toList q' := by
  obtain ⟨es, hinv, hq⟩ := hq
  cases hs with
  | reject hw _ =>
      -- the writer fails before it reserves: it had no record and has none
      exact Channel.quiet hq (hinv.quiet rfl rfl rfl hinv.cache
        (fun v hv => Ring.setWriter_other _ _ _ hv) (hinv.not_mem_of_start hw)
        (by rw [Ring.setWriter_same]; trivial))
  | fail hw _ _ h₁ h₂ hr =>
      exact Channel.quiet hq (hinv.quiet rfl rfl rfl (hinv.cache_getD h₁ h₂ hr)
        (fun v hv => Ring.setWriter_other _ _ _ hv) (hinv.not_mem_of_start hw)
        (by rw [Ring.setWriter_same]; trivial))
  | retry hw _ _ h₁ h₂ hr _ =>
      exact Channel.quiet hq (hinv.quiet rfl rfl rfl (hinv.cache_getD h₁ h₂ hr)
        (fun _ _ => rfl) (hinv.not_mem_of_start hw) (hinv.covered _))
  | exchange hw hc h₀ h₁ h₂ hr =>
      -- the reservation opens the writer's slot at the back
      obtain ⟨new, hinv', hslots⟩ := hinv.exchange h8 hw hc h₀ h₁ h₂ hr rfl
      refine ⟨_, ⟨es ++ new, hinv', rfl⟩, .single ?_⟩
      rw [hq, hslots]
      exact Fifo.Step.reserve (not_mem_slots_of_start hinv hw)
  | pad hw => exact Channel.quiet hq (hinv.pad_step hw rfl)
  | header hw => exact Channel.quiet hq (hinv.header_step hw rfl)
  | write hw => exact Channel.quiet hq (hinv.write_step hw rfl)
  | finish hw => exact Channel.single hq (hinv.finish_step hw rfl)
  | read hr =>
      obtain ⟨-, rest, -, hinv', hstep, -⟩ := hinv.read_step h8 hr
      exact ⟨_, ⟨rest, hinv', rfl⟩, .single (hq ▸ hstep)⟩

/-- Every run from the reader's constructor shows a run of the channel, from the empty one. -/
theorem Step.run_channel [DecidableEq W] (h8 : 8 ≤ c.size) {s₀ s : Ring W} (hinit : s₀.Init c)
    {ls : List (Option (Event W))} (hrun : Run.Trace (Step c) s₀ ls s) :
    ∃ es, Inv c s es ∧
      Run.Trace Fifo.Step [] (ls.filterMap (Option.map Event.toFifo)) (slots s es) := by
  obtain ⟨q, ⟨es, hinv, rfl⟩, htrace⟩ := Run.Trace.simulate (Channel c) (Option.map Event.toFifo)
    (fun _ _ _ _ hq hs => hs.channel h8 hq) (⟨[], Inv.init h8 hinit, rfl⟩ : Channel c s₀ [])
    hrun
  exact ⟨es, hinv, htrace⟩

/-- **The ring buffer is a bounded FIFO channel.** Over any interleaving of the steps of the
reader and of any number of writers from the reader's constructor, on a buffer of 8 bytes or
more, the records lie end to end within one buffer's size from `head`, none across the end of
the buffer, and the run shows a run of the channel: what the reader hands on is what the first
reservations' writers completed, in the order of the reservations, each taken once and never
behind a reservation still open. -/
theorem ring_fifo [DecidableEq W] (h8 : 8 ≤ c.size) {s₀ s : Ring W} (hinit : s₀.Init c)
    {ls : List (Option (Event W))} (hrun : Run.Trace (Step c) s₀ ls s) :
    ∃ es, Inv c s es ∧
      Run.Trace Fifo.Step [] (ls.filterMap (Option.map Event.toFifo)) (slots s es) ∧
      ∃ done, Fifo.Done (ls.filterMap (Option.map Event.toFifo)) (slots s es) done := by
  obtain ⟨es, hinv, htrace⟩ := Step.run_channel h8 hinit hrun
  exact ⟨es, hinv, htrace, Fifo.Trace.fifo htrace⟩

/-- A buffer of 16 bytes: room for one empty message at a time. -/
def sixteenBytes : Const := ⟨16, 4, rfl⟩

/-- The reader's buffer as its constructor leaves it, with one writer about to send message 1
with no payload. -/
def oneWriter : Ring Unit := ⟨fun _ => 0, 0, 0, 0, fun _ => .start 1 []⟩

theorem ring_fifo_one_message : ∃ s es,
    Run.Trace (Step sixteenBytes) oneWriter
      [some (.reserve ()), none, some (.finish () 1 []), some (.read [(1, [])])] s ∧
    Inv sixteenBytes s es ∧
    Run.Trace Fifo.Step [] [.reserve (), .complete () (1, []), .take [(1, [])]] (slots s es) := by
  -- the writer reserves, writes its header and finishes; the reader reads once
  have hrun : Run.Trace (Step sixteenBytes) oneWriter
      [some (.reserve ()), none, some (.finish () 1 []), some (.read [(1, [])])] _ :=
    ((((Run.Trace.refl _).snoc
      (@Step.exchange Unit _ sixteenBytes oneWriter () 1 [] 8 0 0 0 0 0 none rfl rfl le_rfl le_rfl
        le_rfl rfl)).snoc
      (@Step.header Unit _ sixteenBytes _ () 1 [] 0 rfl)).snoc
      (@Step.finish Unit _ sixteenBytes _ () 1 [] 8 8 rfl)).snoc
      (Step.read (show Ring.read _ _ 1 = _ from rfl))
  obtain ⟨es, hinv, htrace, -⟩ := ring_fifo (by decide)
    ⟨fun _ _ => rfl, rfl, rfl, rfl, fun _ => ⟨1, [], rfl⟩⟩ hrun
  exact ⟨_, es, hrun, hinv, htrace⟩

/-- The reader of a buffer of 4 bytes, a power of two, loads its first header from 8 bytes: half
of it from past the end of the buffer. With no writer at all, whatever is there is handed on as
a message. -/
theorem read_past_small_buffer :
    ∃ (c : Const) (s s' : Ring Empty), c.size = 4 ∧ s.Init c ∧
      Step c s (some (.read [(7, [])])) s' := by
  refine ⟨⟨4, 2, rfl⟩, ⟨fun i => if i = 4 then 7 else 0, 0, 0, 0, Empty.elim⟩, _, rfl,
    ⟨fun i hi => ?_, rfl, rfl, rfl, fun w => w.elim⟩,
    Step.read (show Ring.read _ _ 1 = _ from rfl)⟩
  simp only at hi ⊢
  rw [if_neg (by omega)]

/-! ## Every finished message is delivered -/

/-- A writer that has finished has written its padding's header, if it had one. -/
theorem WriterPc.placed_of_isSome {pc : WriterPc} (h : pc.value.isSome) : pc.Placed := by
  cases pc with
  | finished => trivial
  | _ => simp [WriterPc.value] at h

/-- **Every finished message is delivered, once.** After any run from the reader's constructor at
whose end every writer that reserved has finished, reads with a positive limit deliver what is
left: over the whole run, every reservation's message is handed on exactly once, in the order
of the reservations, with what its writer completed. -/
theorem ring_delivers [DecidableEq W] (h8 : 8 ≤ c.size) {s₀ s : Ring W} (hinit : s₀.Init c)
    {ls : List (Option (Event W))} (hrun : Run.Trace (Step c) s₀ ls s)
    (hfin : ∀ w, (s.writers w).Reserved → (s.writers w).value.isSome) {limit : Nat}
    (hlim : 0 < limit) :
    ∃ (outs : List (List (Message × List UInt8))) (s' : Ring W),
      Run.Trace (Step c) s (outs.map fun out => some (Event.read out)) s' ∧
      ∃ done, Fifo.Done ((ls ++ outs.map fun out => some (Event.read out)).filterMap
        (Option.map Event.toFifo)) [] done := by
  obtain ⟨es, hinv, htrace⟩ := Step.run_channel h8 hinit hrun
  -- every record left is one the reader can pass
  have hall : ∀ e ∈ es, Readable s e := by
    intro e he
    have hv := hfin _ (hinv.reserved he)
    cases e with
    | pad w len => exact WriterPc.placed_of_isSome hv
    | msg w len => exact hv
  obtain ⟨outs, s', hreads, -, hdrain⟩ := Inv.drain h8 hlim es.length le_rfl hinv hall
  refine ⟨outs, s', hreads, Fifo.Trace.fifo ?_⟩
  have hlabels : (ls ++ outs.map fun out => some (Event.read out)).filterMap (Option.map Event.toFifo) =
      ls.filterMap (Option.map Event.toFifo) ++ outs.map .take := by
    simp [List.filterMap_append, List.filterMap_map, Function.comp_def, Event.toFifo]
  rw [hlabels]
  exact htrace.append hdrain

theorem ring_delivers_one_message : ∃ s,
    Run.Trace (Step sixteenBytes) oneWriter [some (.reserve ()), none, some (.finish () 1 [])] s ∧
    ∃ (outs : List (List (Message × List UInt8))) (s' : Ring Unit),
      Run.Trace (Step sixteenBytes) s (outs.map fun out => some (Event.read out)) s' ∧
      ∃ done, Fifo.Done ((([some (.reserve ()), none, some (.finish () 1 [])] :
        List (Option (Event Unit))) ++
        outs.map fun out => some (Event.read out)).filterMap (Option.map Event.toFifo)) [] done := by
  -- the writer reserves, writes its header and finishes
  have hrun : Run.Trace (Step sixteenBytes) oneWriter
      [some (.reserve ()), none, some (.finish () 1 [])] _ :=
    (((Run.Trace.refl _).snoc
      (@Step.exchange Unit _ sixteenBytes oneWriter () 1 [] 8 0 0 0 0 0 none rfl rfl le_rfl le_rfl
        le_rfl rfl)).snoc
      (@Step.header Unit _ sixteenBytes _ () 1 [] 0 rfl)).snoc
      (@Step.finish Unit _ sixteenBytes _ () 1 [] 8 8 rfl)
  exact ⟨_, hrun, ring_delivers (by decide) ⟨fun _ _ => rfl, rfl, rfl, rfl, fun _ => ⟨1, [], rfl⟩⟩
    hrun (fun _ _ => rfl) Nat.one_pos⟩

end Ccf.Ringbuffer
