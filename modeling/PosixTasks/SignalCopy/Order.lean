import PosixTasks.SignalCopy.Tokens

/-!
# The copy keeps the order of the blocks

`output.txt` is, at every moment, what `consumer_handler` has written of the blocks for which
`producer_handler` queued `SIG_CONSUMER`. While the consumer is live, the blocks it still owes
are those of the chunks in its handler and in its pending signals, in that order, and each of
these chunks still holds its block: `producer_handler` only fills chunks that are written out.

## Main results

* `Draining`: the blocks handed over are the blocks written, then the blocks owed;
* `inOrder_of_run`: along every run the consumer is draining, or it has stopped for good;
* `output_prefix_of_run`: `output.txt` is a prefix of the blocks handed over, and no chunk is
  overwritten before it is written out.
-/

namespace SignalCopy

open Transition

/-! ## The blocks handed over -/

/-- Reading a block does not hand it over. -/
@[simp]
theorem handedOver_read (reads : List (List Byte × Bool)) (b : List Byte) :
    ((reads ++ [(b, false)]).filter (·.2)).map (·.1) = (reads.filter (·.2)).map (·.1) := by
  simp

/-- Queueing `SIG_CONSUMER` for the last block read hands it over. -/
theorem handedOver_markQueued (reads : List (List Byte × Bool)) (b : List Byte) :
    ((markQueued (reads ++ [(b, false)])).filter (·.2)).map (·.1)
      = (reads.filter (·.2)).map (·.1) ++ [b] := by
  simp [markQueued]

/-- The chunk `c` holds the block `b` and its size. -/
def State.Holds (s : State) (c : ChunkNum) (b : List Byte) : Prop :=
  (s.sh.buffer c).take b.length = b ∧ s.sh.chunkSize c = b.length

/-- The last block read is the one `producer_handler` is about to hand over. -/
def LastBlock (s : State) : Prop :=
  match s.producer with
  | some (.gotBlock c n) =>
      ∃ reads b, s.reads = reads ++ [(b, false)] ∧ b.length = n ∧ (s.sh.buffer c).take n = b
  | some (.sendBlock c) => ∃ reads b, s.reads = reads ++ [(b, false)] ∧ s.Holds c b
  | _ => True

/-- How many bytes of its chunk `consumer_handler` has written. -/
def State.written (s : State) : ℕ :=
  match s.consumer with
  | some (.writing _ _ n) => n
  | _ => 0

/-- The chunk `consumer_handler` is writing out. -/
def State.working (s : State) : Option ℤ :=
  s.consumer.bind ConsumerPc.chunk?

/-- The consumer is live: the blocks handed over are the blocks `done`, which are written out,
and the blocks `owed`, of which the first may be partly written. -/
structure Draining (s : State) (done : List (List Byte))
    (owed : List (ChunkNum × List Byte)) : Prop where
  running : s.childRunning = true
  accepting : s.consumerIgnored = false
  handed : s.handedOver = done ++ owed.map Prod.snd
  values : owed.map (fun p => (p.1 : ℤ)) = s.working.toList ++ s.consumerQueue
  holds : ∀ p ∈ owed, s.Holds p.1 p.2
  size : ∀ c n k, s.consumer = some (.writing c n k) → n = s.sh.chunkSize c ∧ k ≤ n
  output : s.output = done.flatten ++ ((owed.map Prod.snd).headD []).take s.written

/-- The consumer writes nothing any more. -/
structure Stopped (s : State) : Prop where
  idle : s.working = none
  stopped : s.consumerIgnored = true ∨ s.childRunning = false ∨
    s.consumer = some .failWrite ∨ s.consumer = some .ignore
  output : s.output <+: s.handedOver.flatten

/-- The consumer is draining the blocks handed over, or has stopped. -/
def ConsumerInOrder (s : State) : Prop :=
  Stopped s ∨ ∃ done owed, Draining s done owed

/-- Both sides keep the order of the blocks. -/
structure InOrder (s : State) : Prop where
  consumer : ConsumerInOrder s
  lastBlock : LastBlock s
  fresh : s.child = .openOut → s.output = []

theorem Draining.output_start {s : State} {done owed} (h : Draining s done owed) :
    s.output <+: s.handedOver.flatten := by
  rw [h.output, h.handed, List.flatten_append, List.prefix_append_right_inj]
  cases owed with
  | nil => simp
  | cons p rest =>
    simp only [List.map_cons, List.headD_cons, List.flatten_cons]
    exact (List.take_prefix _ _).trans (List.prefix_append _ _)

theorem InOrder.output_start {s : State} (h : InOrder s) :
    s.output <+: s.handedOver.flatten := by
  rcases h.consumer with h | ⟨_, _, h⟩
  · exact h.output
  · exact h.output_start

/-- A chunk whose block is owed is unfinished. -/
theorem Draining.unfinished {s : State} {done owed} (h : Draining s done owed)
    (htok : OneToken s) {p : ChunkNum × List Byte} (hp : p ∈ owed) :
    s.unfinished p.1 = true := by
  have hmem : (p.1 : ℤ) ∈ s.working.toList ++ s.consumerQueue := by
    rw [← h.values]
    exact List.mem_map_of_mem hp
  have hpos : 0 < s.inTransit p.1 := by
    rw [State.inTransit, ← State.working]
    rcases List.mem_append.mp hmem with hw | hq
    · rw [Option.mem_toList] at hw
      rw [if_pos hw]
      omega
    · have := List.count_pos_iff.mpr hq
      omega
  have := htok.inTransit_le p.1
  rcases hu : s.unfinished p.1 with _ | _
  · rw [hu, Bool.toNat_false] at this
    omega
  · rfl

/-- The chunk `producer_handler` is filling holds no block that is owed. -/
theorem Draining.ne_of_filling {s : State} {done owed} (h : Draining s done owed)
    (htok : OneToken s) {c : ChunkNum} (hc : s.producer.bind ProducerPc.chunk? = some (c : ℤ))
    {p : ChunkNum × List Byte} (hp : p ∈ owed) : p.1 ≠ c := by
  rintro rfl
  have h₁ := h.unfinished htok hp
  have h₂ := htok.not_unfinished hc
  rw [h₁] at h₂
  exact Bool.noConfusion h₂

/-! ## Steps that the consumer's side does not see -/

/-- `Draining` reads the consumer, its signals, the chunks, `output` and the history only. -/
theorem Draining.congr {s s' : State} {done owed} (h : Draining s done owed)
    (hrun : s'.childRunning = true) (hign : s'.consumerIgnored = s.consumerIgnored)
    (hreads : s'.handedOver = s.handedOver) (hc : s'.consumer = s.consumer)
    (hcq : s'.consumerQueue = s.consumerQueue) (hbuf : s'.sh.buffer = s.sh.buffer)
    (hsize : s'.sh.chunkSize = s.sh.chunkSize) (hout : s'.output = s.output) :
    Draining s' done owed where
  running := hrun
  accepting := hign.trans h.accepting
  handed := hreads.trans h.handed
  values := by
    rw [State.working, hc, hcq]
    exact h.values
  holds p hp := by
    rw [State.Holds, hbuf, hsize]
    exact h.holds p hp
  size c n k hk := by
    rw [hsize]
    exact h.size c n k (by rw [← hc]; exact hk)
  output := by
    rw [hout, State.written, hc]
    exact h.output

/-- A consumer that has stopped stays so while its handler, its output and the blocks handed
over do not change. -/
theorem Stopped.congr {s s' : State} (h : Stopped s)
    (hrun : s.childRunning = false → s'.childRunning = false)
    (hign : s'.consumerIgnored = s.consumerIgnored)
    (hreads : s.handedOver.flatten <+: s'.handedOver.flatten) (hc : s'.consumer = s.consumer)
    (hout : s'.output = s.output) : Stopped s' where
  idle := by
    rw [State.working, hc]
    exact h.idle
  stopped := by
    rw [hign, hc]
    rcases h.stopped with h | h | h
    · exact Or.inl h
    · exact Or.inr (Or.inl (hrun h))
    · exact Or.inr (Or.inr h)
  output := by
    rw [hout]
    exact h.output.trans hreads

theorem lastBlock_congr {s s' : State} (h : LastBlock s) (hp : s'.producer = s.producer)
    (hreads : s'.reads = s.reads) (hbuf : s'.sh.buffer = s.sh.buffer)
    (hsize : s'.sh.chunkSize = s.sh.chunkSize) : LastBlock s' := by
  unfold LastBlock State.Holds at h ⊢
  rw [hp, hreads, hbuf, hsize]
  exact h

/-- A step that leaves the consumer's side and the history alone. -/
theorem ConsumerInOrder.congr {s s' : State} (h : ConsumerInOrder s)
    (hrun : s'.childRunning = s.childRunning) (hign : s'.consumerIgnored = s.consumerIgnored)
    (hreads : s'.reads = s.reads) (hc : s'.consumer = s.consumer)
    (hcq : s'.consumerQueue = s.consumerQueue) (hbuf : s'.sh.buffer = s.sh.buffer)
    (hsize : s'.sh.chunkSize = s.sh.chunkSize) (hout : s'.output = s.output) :
    ConsumerInOrder s' := by
  have hhanded : s'.handedOver = s.handedOver := by rw [State.handedOver, hreads]; rfl
  rcases h with h | ⟨done, owed, h⟩
  · exact Or.inl (h.congr (hrun.trans) hign (by rw [hhanded]) hc hout)
  · exact Or.inr ⟨done, owed, h.congr (hrun.trans h.running) hign hhanded hc hcq hbuf hsize hout⟩

/-- A step that leaves the consumer's side, the producer's handler and the history alone. -/
theorem InOrder.congr {s s' : State} (h : InOrder s) (hchild : s'.child = s.child)
    (hign : s'.consumerIgnored = s.consumerIgnored) (hreads : s'.reads = s.reads)
    (hc : s'.consumer = s.consumer) (hcq : s'.consumerQueue = s.consumerQueue)
    (hp : s'.producer = s.producer) (hbuf : s'.sh.buffer = s.sh.buffer)
    (hsize : s'.sh.chunkSize = s.sh.chunkSize) (hout : s'.output = s.output) : InOrder s' where
  consumer :=
    h.consumer.congr (by rw [State.childRunning, hchild]; rfl) hign hreads hc hcq hbuf hsize hout
  lastBlock := lastBlock_congr h.lastBlock hp hreads hbuf hsize
  fresh := by
    rw [hchild, hout]
    exact h.fresh

/-- When the child ends outside its handler, the consumer has stopped. -/
theorem InOrder.stopped_of_ended {s s' : State} (h : InOrder s) (hc' : s'.consumer = none)
    (hrun : s'.childRunning = false) (hreads : s'.reads = s.reads)
    (hout : s'.output = s.output) : Stopped s' where
  idle := by rw [State.working, hc']; rfl
  stopped := Or.inr (Or.inl hrun)
  output := by
    have hhanded : s'.handedOver = s.handedOver := by rw [State.handedOver, hreads]; rfl
    rw [hout, hhanded]
    exact h.output_start

/-- A step of the child's main program that changes its position and leaves the rest of the
consumer's side alone. -/
theorem InOrder.child {s s' : State} (h : InOrder s) (hc : s.consumer = none)
    (hwas : s.childRunning = true) (hign : s'.consumerIgnored = s.consumerIgnored)
    (hreads : s'.reads = s.reads) (hc' : s'.consumer = none)
    (hcq : s'.consumerQueue = s.consumerQueue) (hp : s'.producer = s.producer)
    (hbuf : s'.sh.buffer = s.sh.buffer) (hsize : s'.sh.chunkSize = s.sh.chunkSize)
    (hout : s'.output = s.output) (hopen : s'.child ≠ .openOut) : InOrder s' where
  consumer := by
    have hhanded : s'.handedOver = s.handedOver := by rw [State.handedOver, hreads]; rfl
    rcases hrun : s'.childRunning with _ | _
    · exact Or.inl (h.stopped_of_ended hc' hrun hreads hout)
    · rcases h.consumer with h | ⟨done, owed, h⟩
      · refine Or.inl (h.congr (fun h => ?_) hign (by rw [hhanded]) (hc'.trans hc.symm) hout)
        rw [hwas] at h
        exact Bool.noConfusion h
      · exact Or.inr ⟨done, owed,
          h.congr hrun hign hhanded (hc'.trans hc.symm) hcq hbuf hsize hout⟩
  lastBlock := lastBlock_congr h.lastBlock hp hreads hbuf hsize
  fresh hpc := absurd hpc hopen

/-! ## One lemma per action -/

theorem inOrder_init (file : List Byte) : InOrder (init file) where
  consumer := Or.inr ⟨[], [],
    { running := rfl, accepting := rfl, handed := rfl, values := rfl, holds := by simp
      size := by simp [init], output := rfl }⟩
  lastBlock := trivial
  fresh _ := rfl

theorem inOrder_openOut {s s' : State} {ok : Bool} (hs : InOrder s)
    (h : Move s (.openOut ok) s') : InOrder s' := by
  cases h with
  | opened hc hpc =>
    have hrun : s.childRunning = true := by simp [State.childRunning, hpc]
    exact hs.child hc hrun rfl rfl hc rfl rfl rfl rfl (hs.fresh hpc).symm (by simp)
  | openFailed hc hpc =>
    have hrun : s.childRunning = true := by simp [State.childRunning, hpc]
    exact hs.child hc hrun rfl rfl hc rfl rfl rfl rfl rfl (by simp)

theorem inOrder_childSigqueue {s s' : State} {ok : Bool} (hs : InOrder s)
    (h : Move s (.childSigqueue ok) s') : InOrder s' := by
  cases h with
  | tokenSent i hc hpc =>
    have hrun : s.childRunning = true := by simp [State.childRunning, hpc]
    rcases sigqueueProducer_cases s i with hq | hq <;> rw [hq]
    all_goals exact hs.child hc hrun rfl rfl hc rfl rfl rfl rfl rfl (by simp)
  | tokenFailed i hc hpc =>
    have hrun : s.childRunning = true := by simp [State.childRunning, hpc]
    exact hs.child hc hrun rfl rfl hc rfl rfl rfl rfl rfl (by simp)

theorem inOrder_deliverProducer {s s' : State} (hs : InOrder s)
    (h : Move s .deliverProducer s') : InOrder s' := by
  cases h with
  | producerCrash => exact hs.congr rfl rfl rfl rfl rfl rfl rfl rfl rfl
  | producerEnter =>
    exact ⟨hs.consumer.congr rfl rfl rfl rfl rfl rfl rfl rfl, trivial, hs.fresh⟩

theorem interrupted_running {s s' : State} (h : s'.child = s.child.interrupted) :
    s'.childRunning = s.childRunning := by
  unfold State.childRunning
  rw [h]
  cases s.child <;> rfl

theorem interrupted_openOut {pc : ChildPc} (h : pc.interrupted = .openOut) : pc = .openOut := by
  cases pc <;> simp_all [ChildPc.interrupted]

theorem inOrder_deliverConsumer {s s' : State} (hs : InOrder s)
    (h : Move s .deliverConsumer s') : InOrder s' := by
  cases h with
  | consumerCrash v rest code hc =>
    exact ⟨Or.inl (hs.stopped_of_ended hc rfl rfl rfl), lastBlock_congr hs.lastBlock
      rfl rfl rfl rfl, by simp⟩
  | consumerEnter v rest hc hq haccepts hrunning =>
    refine ⟨Or.inr ?_, lastBlock_congr hs.lastBlock rfl rfl rfl rfl,
      fun hpc => hs.fresh (interrupted_openOut hpc)⟩
    rcases hs.consumer with hstop | ⟨done, owed, hdrain⟩
    · have := hstop.stopped
      simp [hc, hrunning, haccepts] at this
    · -- the first pending value enters the handler, and the order is the same
      have hvals := hdrain.values
      have hout := hdrain.output
      simp only [State.working, hc, hq, Option.bind_none, Option.toList_none,
        List.nil_append] at hvals
      simp only [State.written, hc] at hout
      exact ⟨done, owed,
        { running := (interrupted_running rfl).trans hdrain.running
          accepting := hdrain.accepting
          handed := hdrain.handed
          values := by simpa [State.working, ConsumerPc.chunk?] using hvals
          holds := hdrain.holds
          size := by simp
          output := by simpa [State.written] using hout }⟩

/-! ### The producer's handler -/

/-- The chunk in the consumer's handler is the first one owed. -/
theorem Draining.owed_cons {s : State} {done owed} (h : Draining s done owed) {v : ℤ}
    (hw : s.working = some v) :
    ∃ p rest, owed = p :: rest ∧ (p.1 : ℤ) = v ∧
      rest.map (fun q => (q.1 : ℤ)) = s.consumerQueue := by
  have hvals := h.values
  rw [hw] at hvals
  cases owed with
  | nil => simp at hvals
  | cons p rest =>
    simp only [List.map_cons, Option.toList_some, List.cons_append, List.nil_append,
      List.cons.injEq] at hvals
    exact ⟨p, rest, rfl, hvals.1, hvals.2⟩

/-- A consumer with a chunk in its handler is live, and the block of that chunk is the first one
owed. -/
theorem InOrder.draining_of_working {s : State} (h : InOrder s) {v : ℤ}
    (hw : s.working = some v) :
    ∃ done p rest, Draining s done (p :: rest) ∧ (p.1 : ℤ) = v ∧
      rest.map (fun q => (q.1 : ℤ)) = s.consumerQueue := by
  rcases h.consumer with hstop | ⟨done, owed, hdrain⟩
  · rw [hstop.idle] at hw
    simp at hw
  · obtain ⟨p, rest, rfl, hp, hrest⟩ := hdrain.owed_cons hw
    exact ⟨done, p, rest, hdrain, hp, hrest⟩

/-- In the write loop the first block owed is the one the chunk holds, `written` bytes of it are
in `output.txt`, and `bytes_to_write` is its length. -/
theorem InOrder.draining_of_writing {s : State} (h : InOrder s) {chunk : ChunkNum}
    {bytesToWrite written : ℕ} (hc : s.consumer = some (.writing chunk bytesToWrite written)) :
    ∃ done b rest, Draining s done ((chunk, b) :: rest) ∧ b.length = bytesToWrite ∧
      s.output = done.flatten ++ b.take written ∧
      rest.map (fun q => (q.1 : ℤ)) = s.consumerQueue := by
  obtain ⟨done, ⟨c, b⟩, rest, hdrain, hp, hrest⟩ := h.draining_of_working (v := chunk)
    (by rw [State.working, hc]; rfl)
  obtain rfl : c = chunk := by
    rw [Fin.ext_iff]
    exact_mod_cast hp
  have hlen := (hdrain.holds (c, b) List.mem_cons_self).2
  have hsize := (hdrain.size _ _ _ hc).1
  have hout := hdrain.output
  simp only [State.written, hc, List.map_cons, List.headD_cons] at hout
  exact ⟨done, b, rest, hdrain, hlen.symm.trans hsize.symm, hout, hrest⟩

/-- Filling a chunk changes nothing the consumer reads: no block of that chunk is owed. -/
theorem ConsumerInOrder.fill {s s' : State} {c : ChunkNum} (h : ConsumerInOrder s)
    (htok : OneToken s) (hfill : s.producer.bind ProducerPc.chunk? = some (c : ℤ))
    (hrun : s'.childRunning = s.childRunning) (hign : s'.consumerIgnored = s.consumerIgnored)
    (hhanded : s'.handedOver = s.handedOver) (hc : s'.consumer = s.consumer)
    (hcq : s'.consumerQueue = s.consumerQueue)
    (hbuf : ∀ c' ≠ c, s'.sh.buffer c' = s.sh.buffer c')
    (hsize : ∀ c' ≠ c, s'.sh.chunkSize c' = s.sh.chunkSize c') (hout : s'.output = s.output) :
    ConsumerInOrder s' := by
  rcases h with h | ⟨done, owed, h⟩
  · exact Or.inl (h.congr (hrun.trans) hign (by rw [hhanded]) hc hout)
  · refine Or.inr ⟨done, owed, ?_⟩
    exact
      { running := hrun.trans h.running
        accepting := hign.trans h.accepting
        handed := hhanded.trans h.handed
        values := by
          rw [State.working, hc, hcq]
          exact h.values
        holds := fun p hp => by
          -- the chunk being filled is none of those still to be written
          have hne := h.ne_of_filling htok hfill hp
          rw [State.Holds, hbuf _ hne, hsize _ hne]
          exact h.holds p hp
        size := fun c' n k hk => by
          rw [hc] at hk
          obtain ⟨p, rest, howed, hp, -⟩ := h.owed_cons (v := c')
            (by rw [State.working, hk]; rfl)
          have hpc : p.1 = c' := by
            rw [Fin.ext_iff]
            exact_mod_cast hp
          have hne : c' ≠ c := hpc ▸ h.ne_of_filling htok hfill (by rw [howed]; simp)
          rw [hsize c' hne]
          exact h.size c' n k hk
        output := by
          rw [hout, State.written, hc]
          exact h.output }

theorem inOrder_producer {s s' : State} (hs : InOrder s) (htok : OneToken s)
    (h : Move s .producer s') : InOrder s' := by
  cases h with
  | producerChunk | producerNoChunk | producerFail | producerEnd | producerIgnore =>
    exact ⟨hs.consumer.congr rfl rfl rfl rfl rfl rfl rfl rfl, trivial, hs.fresh⟩
  | countBlock chunk currSize hp =>
    refine ⟨hs.consumer.fill (c := chunk) htok (by rw [hp]; rfl) rfl rfl rfl rfl rfl
      (fun _ _ => rfl) (fun c' hc' => Function.update_of_ne hc' _ _) rfl, ?_, hs.fresh⟩
    have hlast := hs.lastBlock
    simp only [LastBlock, hp] at hlast
    obtain ⟨reads, b, hreads, hlen, hbuf⟩ := hlast
    refine ⟨reads, b, hreads, ?_, ?_⟩
    · rw [hlen]
      exact hbuf
    · exact (Function.update_self (f := s.sh.chunkSize) ..).trans hlen.symm

theorem inOrder_read {s s' : State} {r : Option ℕ} (hs : InOrder s) (htok : OneToken s)
    (h : Move s (.read r) s') : InOrder s' := by
  cases h with
  | readFailed =>
    exact ⟨hs.consumer.congr rfl rfl rfl rfl rfl rfl rfl rfl, trivial, hs.fresh⟩
  | readNothing =>
    refine ⟨hs.consumer.congr rfl rfl rfl rfl rfl rfl rfl rfl, ?_, hs.fresh⟩
    unfold LastBlock
    dsimp only
    split_ifs <;> trivial
  | readBlock chunk n hp _ _ hn =>
    refine ⟨hs.consumer.fill (c := chunk) htok (by rw [hp]; rfl) rfl rfl
      (handedOver_read _ _) rfl rfl (fun c' hc' => Function.update_of_ne hc' _ _)
      (fun _ _ => rfl) rfl, ?_, hs.fresh⟩
    -- the chunk holds the block in front of what was there before
    have hlen : (s.unread.take (n + 1)).length = n + 1 := by
      rw [List.length_take]
      omega
    refine ⟨s.reads, s.unread.take (n + 1), rfl, hlen, ?_⟩
    calc ((Function.update s.sh.buffer chunk (s.unread.take (n + 1)
            ++ (s.sh.buffer chunk).drop (n + 1))) chunk).take (n + 1)
        = (s.unread.take (n + 1) ++ (s.sh.buffer chunk).drop (n + 1)).take (n + 1) := by
          rw [Function.update_self]
      _ = s.unread.take (n + 1) := List.take_left' hlen

/-- Outside the write loop nothing of the next block is written. -/
theorem Draining.written_of_nil {s : State} {done} (h : Draining s done []) : s.written = 0 := by
  have hvals := h.values
  unfold State.written
  split
  next c n k hk =>
    rw [State.working, hk] at hvals
    simp [ConsumerPc.chunk?] at hvals
  next => rfl

/-- A live consumer owes one block more when `SIG_CONSUMER` is queued for it. -/
theorem Draining.queue {s : State} {done owed} (h : Draining s done owed) {chunk : ChunkNum}
    {b : List Byte} (hholds : s.Holds chunk b) {reads : List (List Byte × Bool)}
    {pc : Option ProducerPc} {unfinished : ChunkNum → Bool}
    (hhanded : (reads.filter (·.2)).map (·.1) = s.handedOver ++ [b]) :
    Draining { s with
        producer := pc
        reads := reads
        consumerQueue := s.consumerQueue ++ [(chunk : ℤ)]
        unfinished := unfinished } done (owed ++ [(chunk, b)]) where
  running := h.running
  accepting := h.accepting
  handed := by
    rw [State.handedOver, hhanded, h.handed]
    simp
  values := by
    have := h.values
    rw [State.working] at this
    simp only [State.working, List.map_append, List.map_cons, List.map_nil, this,
      List.append_assoc]
  holds p hp := by
    -- the earlier chunks hold what they did, and this one holds the block
    rcases List.mem_append.mp hp with hp | hp
    · exact h.holds p hp
    · rw [List.mem_singleton] at hp
      subst hp
      exact hholds
  size := h.size
  output := by
    rw [h.output]
    cases owed with
    | nil =>
      have hwritten := h.written_of_nil
      simp only [State.written] at hwritten
      simp [State.written, hwritten]
    | cons p rest => rfl

theorem inOrder_producerSigqueue {s s' : State} {ok : Bool} (hs : InOrder s)
    (h : Move s (.producerSigqueue ok) s') : InOrder s' := by
  cases h with
  | blockFailed =>
    exact ⟨hs.consumer.congr rfl rfl rfl rfl rfl rfl rfl rfl, trivial, hs.fresh⟩
  | blockSent chunk hp =>
    have hlast := hs.lastBlock
    simp only [LastBlock, hp] at hlast
    obtain ⟨reads, b, hreads, hholds⟩ := hlast
    -- the block joins those that were handed over
    have hhanded : ((markQueued s.reads).filter (·.2)).map (·.1) = s.handedOver ++ [b] := by
      rw [State.handedOver, hreads, handedOver_markQueued, handedOver_read]
    rcases hs.consumer with hstop | ⟨done, owed, hdrain⟩
    · -- a consumer that has stopped drops the block
      have hpre : s.handedOver.flatten
          <+: (((markQueued s.reads).filter (·.2)).map (·.1)).flatten := by
        rw [hhanded, List.flatten_append]
        exact List.prefix_append _ _
      rcases sigqueueConsumer_cases s chunk with hq | hq <;> rw [hq]
      all_goals
        exact ⟨Or.inl (hstop.congr id rfl hpre rfl rfl), trivial, hs.fresh⟩
    · have hq : s.sigqueueConsumer chunk
          = { s with consumerQueue := s.consumerQueue ++ [(chunk : ℤ)] } := by
        rw [State.sigqueueConsumer, if_pos]
        exact ⟨hdrain.running, by simp [hdrain.accepting]⟩
      rw [hq]
      exact ⟨Or.inr ⟨done, owed ++ [(chunk, b)], hdrain.queue hholds hhanded⟩, trivial, hs.fresh⟩

/-! ### The consumer's handler -/

/-- A step inside the handler that writes nothing and keeps the chunk being written. -/
theorem Draining.advance {s s' : State} {done owed} (h : Draining s done owed)
    (hrun : s'.childRunning = s.childRunning) (hign : s'.consumerIgnored = s.consumerIgnored)
    (hreads : s'.reads = s.reads) (hw : s'.working = s.working)
    (hcq : s'.consumerQueue = s.consumerQueue) (hbuf : s'.sh.buffer = s.sh.buffer)
    (hsize : s'.sh.chunkSize = s.sh.chunkSize)
    (hk : ∀ c n k, s'.consumer = some (.writing c n k) → n = s.sh.chunkSize c ∧ k ≤ n)
    (hwritten : s'.written = s.written) (hout : s'.output = s.output) :
    Draining s' done owed where
  running := hrun.trans h.running
  accepting := hign.trans h.accepting
  handed := by
    rw [State.handedOver, hreads]
    exact h.handed
  values := by
    rw [hw, hcq]
    exact h.values
  holds p hp := by
    rw [State.Holds, hbuf, hsize]
    exact h.holds p hp
  size c n k hc := by
    rw [hsize]
    exact hk c n k hc
  output := by
    rw [hout, hwritten]
    exact h.output

/-- Outside the write loop a step of the handler keeps a stopped consumer stopped. -/
theorem Stopped.advance {s s' : State} (h : Stopped s)
    (hrun : s'.childRunning = s.childRunning) (hw : s'.working = none)
    (hstop : s.consumerIgnored = true ∨ s.consumer = some .failWrite ∨
        s.consumer = some .ignore →
      s'.consumerIgnored = true ∨ s'.consumer = some .failWrite ∨ s'.consumer = some .ignore)
    (hreads : s'.reads = s.reads) (hout : s'.output = s.output) : Stopped s' where
  idle := hw
  stopped := by
    rw [hrun]
    have := h.stopped
    tauto
  output := by
    rw [hout, State.handedOver, hreads]
    exact h.output

/-- Once the block is written in full, it is no longer owed. -/
theorem Draining.finish {s : State} {done rest} {chunk : ChunkNum} {b : List Byte}
    (h : Draining s done ((chunk, b) :: rest)) (hout : s.output = done.flatten ++ b)
    (hrest : rest.map (fun q => (q.1 : ℤ)) = s.consumerQueue) :
    Draining { s with
        consumer := some (.sendToken chunk)
        unfinished := Function.update s.unfinished chunk false } (done ++ [b]) rest where
  running := h.running
  accepting := h.accepting
  handed := h.handed.trans (by simp)
  values := by simpa [State.working, ConsumerPc.chunk?] using hrest
  holds q hq := h.holds q (List.mem_cons_of_mem _ hq)
  size := by simp
  output := by simpa [State.written] using hout

theorem inOrder_consumer {s s' : State} (hs : InOrder s) (h : Move s .consumer s') :
    InOrder s' := by
  cases h with
  | consumerChunk chunk hc =>
    obtain ⟨done, p, rest, hdrain, -⟩ := hs.draining_of_working (v := chunk)
      (by rw [State.working, hc]; rfl)
    refine ⟨Or.inr ⟨done, p :: rest, hdrain.advance rfl rfl rfl ?_ rfl rfl rfl (by simp) ?_ rfl⟩,
      hs.lastBlock, hs.fresh⟩
    · simp [State.working, hc, ConsumerPc.chunk?]
    · simp [State.written, hc]
  | consumerNoChunk v hc hv =>
    -- the value delivered is the number of the first chunk owed, so it passes the check
    obtain ⟨done, p, rest, -, hp, -⟩ := hs.draining_of_working (v := v)
      (by rw [State.working, hc]; rfl)
    have hlt := p.1.isLt
    omega
  | readSize chunk hc =>
    obtain ⟨done, p, rest, hdrain, -⟩ := hs.draining_of_working (v := chunk)
      (by rw [State.working, hc]; rfl)
    refine ⟨Or.inr ⟨done, p :: rest, hdrain.advance rfl rfl rfl ?_ rfl rfl rfl ?_ ?_ rfl⟩,
      hs.lastBlock, hs.fresh⟩
    · simp [State.working, hc, ConsumerPc.chunk?]
    · -- `bytes_to_write` is read from `chunk_size` here
      intro c n k hk
      simp only [Option.some.injEq, ConsumerPc.writing.injEq] at hk
      obtain ⟨rfl, rfl, rfl⟩ := hk
      exact ⟨rfl, Nat.zero_le _⟩
    · simp [State.written, hc]
  | written chunk bytesToWrite written hc hfull =>
    -- the whole block is written, and it passes from `owed` to `done`
    obtain ⟨done, b, rest, hdrain, hlen, hout, hrest⟩ := hs.draining_of_writing hc
    rw [List.take_of_length_le (by omega)] at hout
    exact ⟨Or.inr ⟨done ++ [b], rest, hdrain.finish hout hrest⟩, hs.lastBlock, hs.fresh⟩
  | consumerFailWrite =>
    rcases hs.consumer with hstop | ⟨done, owed, hdrain⟩
    · exact ⟨Or.inl (hstop.advance rfl rfl (by simp) rfl rfl), hs.lastBlock, hs.fresh⟩
    · exact ⟨Or.inl ⟨rfl, by simp, hdrain.output_start⟩, hs.lastBlock, hs.fresh⟩
  | consumerIgnore =>
    -- `SIG_CONSUMER` is ignored from here on
    exact ⟨Or.inl ⟨rfl, by simp, hs.output_start⟩, hs.lastBlock, hs.fresh⟩
  | consumerFail hc =>
    rcases hs.consumer with hstop | ⟨done, owed, hdrain⟩
    · exact ⟨Or.inl (hstop.advance rfl rfl (by simp [hc]) rfl rfl), hs.lastBlock, hs.fresh⟩
    · refine ⟨Or.inr ⟨done, owed, hdrain.advance rfl rfl rfl ?_ rfl rfl rfl (by simp) ?_ rfl⟩,
        hs.lastBlock, hs.fresh⟩
      · simp [State.working, hc, ConsumerPc.chunk?]
      · simp [State.written, hc]

/-- No block is written before the child has opened `output.txt`. -/
theorem OneToken.opened_of_working {s : State} (htok : OneToken s) {c : ChunkNum}
    (hw : s.working = some (c : ℤ)) : s.child ≠ .openOut := by
  intro hpc
  have h₁ := htok.inTransit_le c
  have h₂ := htok.tokens_le_one c
  rw [State.inTransit, ← State.working, if_pos hw] at h₁
  simp only [State.tokens, hpc, ChildPc.unsent] at h₂
  omega

/-- The bytes written are the next bytes of the block the chunk holds. -/
theorem State.Holds.written {s : State} {c : ChunkNum} {b : List Byte} (h : s.Holds c b) {k n : ℕ}
    (hn : n ≤ b.length - k) : ((s.sh.buffer c).drop k).take n = (b.drop k).take n := by
  have hblock := congrArg (fun l => (l.drop k).take n) h.1
  simp only [List.drop_take, List.take_take] at hblock
  rw [← hblock]
  congr 1
  omega

/-- A `write` appends the next bytes of the first block owed. -/
theorem Draining.write {s : State} {done rest} {chunk : ChunkNum} {b : List Byte}
    {bytesToWrite written n : ℕ} (h : Draining s done ((chunk, b) :: rest))
    (hc : s.consumer = some (.writing chunk bytesToWrite written))
    (hn : n ≤ bytesToWrite - written) (hlen : b.length = bytesToWrite)
    (hout : s.output = done.flatten ++ b.take written) (hlt : written < bytesToWrite) :
    Draining { s with
        output := s.output ++ ((s.sh.buffer chunk).drop written).take n
        consumer := some (.writing chunk bytesToWrite (written + n)) }
      done ((chunk, b) :: rest) where
  running := h.running
  accepting := h.accepting
  handed := h.handed
  values := by
    have hvals := h.values
    rw [State.working, hc] at hvals
    exact hvals
  holds := h.holds
  size c m k hk := by
    simp only [Option.some.injEq, ConsumerPc.writing.injEq] at hk
    obtain ⟨rfl, rfl, rfl⟩ := hk
    exact ⟨(h.size _ _ _ hc).1, by omega⟩
  output := by
    simp only [State.written, List.map_cons, List.headD_cons]
    have hblock : s.Holds chunk b := h.holds (chunk, b) List.mem_cons_self
    rw [hout, hblock.written (by omega), List.append_assoc, ← List.take_add]

theorem inOrder_write {s s' : State} {r : Option ℕ} (hs : InOrder s) (htok : OneToken s)
    (h : Move s (.write r) s') : InOrder s' := by
  cases h with
  | writeFailed => exact ⟨Or.inl ⟨rfl, by simp, hs.output_start⟩, hs.lastBlock, hs.fresh⟩
  | write chunk bytesToWrite written n hc hlt _ hn =>
    obtain ⟨done, b, rest, hdrain, hlen, hout, -⟩ := hs.draining_of_writing hc
    refine ⟨Or.inr ⟨done, (chunk, b) :: rest, hdrain.write hc hn hlen hout hlt⟩,
      hs.lastBlock, fun hopen => absurd hopen ?_⟩
    exact htok.opened_of_working (by rw [State.working, hc]; rfl)

/-- Behind the write loop the handler leaves what is owed alone. -/
theorem ConsumerInOrder.returned {s s' : State} (h : ConsumerInOrder s) {chunk : ChunkNum}
    (hc : s.consumer = some (.sendToken chunk)) (hrun : s'.childRunning = s.childRunning)
    (hign : s'.consumerIgnored = s.consumerIgnored) (hreads : s'.reads = s.reads)
    (hcq : s'.consumerQueue = s.consumerQueue) (hsh : s'.sh = s.sh)
    (hout : s'.output = s.output)
    (hnext : s'.consumer = none ∨ s'.consumer = some .storeFail) : ConsumerInOrder s' := by
  have hw : s'.working = none := by
    rcases hnext with hnext | hnext <;> rw [State.working, hnext] <;> rfl
  rcases h with hstop | ⟨done, owed, hdrain⟩
  · refine Or.inl (hstop.advance hrun hw ?_ hreads hout)
    simp only [hign, hc, Option.some.injEq, reduceCtorEq, or_false]
    exact Or.inl
  · refine Or.inr ⟨done, owed, hdrain.advance hrun hign hreads ?_ hcq (by rw [hsh])
      (by rw [hsh]) ?_ ?_ hout⟩
    · rw [hw, State.working, hc]
      rfl
    · intro c n k hk
      rcases hnext with hnext | hnext <;> simp [hnext] at hk
    · rcases hnext with hnext | hnext <;> simp [State.written, hnext, hc]

theorem inOrder_consumerSigqueue {s s' : State} {ok : Bool} (hs : InOrder s)
    (h : Move s (.consumerSigqueue ok) s') : InOrder s' := by
  cases h with
  | tokenReturned chunk hc =>
    rcases sigqueueProducer_cases s chunk with hq | hq <;> rw [hq]
    all_goals
      exact ⟨hs.consumer.returned hc rfl rfl rfl rfl rfl rfl (Or.inl rfl), hs.lastBlock, hs.fresh⟩
  | returnFailed chunk hc =>
    exact ⟨hs.consumer.returned hc rfl rfl rfl rfl rfl rfl (Or.inr rfl), hs.lastBlock, hs.fresh⟩

/-! ## The invariant along a run -/

theorem inOrder_step {s s' : State} {a : Action} (hs : InOrder s) (htok : OneToken s)
    (h : step s a = some s') : InOrder s' := by
  have hmove := move_of_step h
  cases a with
  | parent =>
    obtain ⟨pc, pidStored, inOpen, rfl⟩ := hmove.parent_frame
    exact hs.congr rfl rfl rfl rfl rfl rfl rfl rfl rfl
  | child =>
    have hc := hmove.consumer_of_child
    obtain ⟨pc, ppidParent, outOpen, rfl, -, hrun, hopen⟩ := hmove.child_frame
    exact hs.child hc hrun rfl rfl hc rfl rfl rfl rfl rfl hopen
  | openOut => exact inOrder_openOut hs hmove
  | childSigqueue => exact inOrder_childSigqueue hs hmove
  | deliverProducer => exact inOrder_deliverProducer hs hmove
  | deliverConsumer => exact inOrder_deliverConsumer hs hmove
  | producer => exact inOrder_producer hs htok hmove
  | read => exact inOrder_read hs htok hmove
  | producerSigqueue => exact inOrder_producerSigqueue hs hmove
  | consumer => exact inOrder_consumer hs hmove
  | write => exact inOrder_write hs htok hmove
  | consumerSigqueue => exact inOrder_consumerSigqueue hs hmove

theorem inOrder_of_run {file : List Byte} {tr : List (State × Action)} {s : State}
    (h : Run step (init file) tr s) : InOrder s := by
  have hboth : OneToken s ∧ InOrder s := by
    refine h.invariant_all (I := fun s => OneToken s ∧ InOrder s)
      ⟨oneToken_init file, inOrder_init file⟩ ?_
    rintro t a u ⟨htok, hs⟩ hstep
    exact ⟨oneToken_step htok hstep, inOrder_step hs htok hstep⟩
  exact hboth.2

/-- In every reachable state `output.txt` is a prefix of the blocks for which `SIG_CONSUMER` was
queued, in reading order, and `producer_handler` is not reading into a chunk whose last queued
block is still to be written out. -/
theorem output_prefix_of_run {file : List Byte} {tr : List (State × Action)} {s : State}
    (h : Run step (init file) tr s) :
    s.output <+: s.handedOver.flatten ∧
      ∀ c, s.producer = some (.reading c) → s.unfinished c = false := by
  refine ⟨(inOrder_of_run h).output_start, fun c hc => ?_⟩
  exact (oneToken_of_run h).not_unfinished (by rw [hc]; rfl)

/-- The child's main program up to its first test of `producer_ended`. -/
def childTokens : List Action :=
  [Action.openOut true, .child] ++ List.replicate chunks (Action.childSigqueue true) ++
    [Action.child]

/-- The child's main program up to `pause()`. -/
def childStart : List Action :=
  childTokens ++ [Action.child, .child]

/-- The parent's handler reads a block and hands it over, and the child's handler writes it and
returns its token. -/
def copyBlock (size : ℕ) : List Action :=
  [.deliverProducer, .producer, .read (some size), .producer, .producerSigqueue true,
    .deliverConsumer, .consumer, .consumer, .write (some size), .consumer,
    .consumerSigqueue true]

private theorem one_byte_executes :
    (execute step (fun _ _ => true) (init [7])
      (childStart ++ [Action.parent] ++ copyBlock 1)).isSome = true := by
  decide

/-- `output_prefix_of_run` at the copy of a file of one byte. -/
theorem output_prefix_of_run_one_byte :
    ∃ s, Reachable step (init [7]) s ∧ s.output = [7] ∧ s.output <+: s.handedOver.flatten ∧
      ∀ c, s.producer = some (.reading c) → s.unfinished c = false := by
  obtain ⟨tr, h, -⟩ := exists_run_of_isSome one_byte_executes
  exact ⟨_, ⟨tr, h⟩, by decide, output_prefix_of_run h⟩

end SignalCopy
