import PosixTasks.SignalCopy.Deadlock

/-!
# What `PROD_END_SUCC` says about `output.txt`

`producer_handler` counts a block in `bytes_read` before it hands the block over, and the child
closes `output.txt` as soon as it sees `producer_ended`. So a block can be lost in two ways:
`sh_data->pid` is still zero when `SIG_CONSUMER` is queued for it, or the child closes the file
while the signal is still pending.

## Main results

* `counted_of_run`: `bytes_read` counts exactly the bytes read from `input.txt`;
* `output_eq_iff_of_run`: when the child has exited with `producer_ended = PROD_END_SUCC`,
  `output.txt` is `input.txt` exactly if no step of the run has lost a block;
* `empty_output_one_byte`: a copy of one byte that ends with `PROD_END_SUCC` and nothing
  written.
-/

namespace SignalCopy

open Transition

/-- A `read` or `write` on an open descriptor does not fail, and a `sigqueue` only fails when its
target is not a running process. -/
def Dependable (s : State) : Action → Prop
  | .read result => s.inOpen = true → result ≠ none
  | .write result => s.outOpen = true → result ≠ none
  | .producerSigqueue ok => ok = true ∨ s.sh.pidStored = false ∨ s.childRunning = false
  | .childSigqueue ok | .consumerSigqueue ok => ok = true ∨ s.parentRunning = false
  | _ => True

instance (s : State) (a : Action) : Decidable (Dependable s a) :=
  match a with
  | .read result => inferInstanceAs (Decidable (s.inOpen = true → result ≠ none))
  | .write result => inferInstanceAs (Decidable (s.outOpen = true → result ≠ none))
  | .producerSigqueue ok =>
      inferInstanceAs (Decidable (ok = true ∨ s.sh.pidStored = false ∨ s.childRunning = false))
  | .childSigqueue ok | .consumerSigqueue ok =>
      inferInstanceAs (Decidable (ok = true ∨ s.parentRunning = false))
  | .parent | .child | .openOut _ | .deliverProducer | .deliverConsumer | .producer
  | .consumer => isTrue trivial

/-- The child is about to close `output.txt`. -/
def ChildPc.closing : ChildPc → Bool
  | .closeOut _ => true
  | _ => false

/-- The step loses no block: `SIG_CONSUMER` is only queued once the parent has stored the
child's pid, and the child only closes `output.txt` with no `SIG_CONSUMER` pending. -/
def LosesNoBlock (s : State) : Action → Prop
  | .producerSigqueue _ => s.sh.pidStored = true
  | .child => s.child.closing = true → s.consumerQueue = []
  | _ => True

instance (s : State) (a : Action) : Decidable (LosesNoBlock s a) :=
  match a with
  | .producerSigqueue _ => inferInstanceAs (Decidable (s.sh.pidStored = true))
  | .child => inferInstanceAs (Decidable (s.child.closing = true → s.consumerQueue = []))
  | .parent | .openOut _ | .childSigqueue _ | .deliverProducer | .deliverConsumer | .producer
  | .read _ | .consumer | .write _ | .consumerSigqueue _ => isTrue trivial

theorem Dependable.reliable {s : State} {a : Action} (h : Dependable s a)
    (hno : LosesNoBlock s a) : Reliable s a := by
  cases a <;> simp_all [Dependable, LosesNoBlock, Reliable]

/-! ## Counting the bytes read -/

/-- The bytes of the block that is read but not counted in `bytes_read` yet. -/
def State.uncounted (s : State) : ℕ :=
  match s.producer with
  | some (.gotBlock _ n) => n
  | _ => 0

/-- `bytes_read` counts the bytes of the blocks read, which are the start of `input.txt`. -/
structure Counted (file : List Byte) (s : State) : Prop where
  content : (s.reads.map (·.1)).flatten ++ s.unread = file
  nonempty : ∀ r ∈ s.reads, r.1 ≠ []
  fileSize : s.sh.fileSize = file.length
  bytesRead : s.sh.bytesRead + s.uncounted = ((s.reads.map (·.1)).flatten).length

theorem counted_init (file : List Byte) : Counted file (init file) where
  content := by simp [init]
  nonempty := by simp [init]
  fileSize := rfl
  bytesRead := by simp [init, State.uncounted]

@[simp]
theorem markQueued_map_fst (reads : List (List Byte × Bool)) :
    (markQueued reads).map (·.1) = reads.map (·.1) := by
  rcases List.eq_nil_or_concat reads with rfl | ⟨pre, r, rfl⟩ <;> simp [markQueued]

theorem Counted.congr {file : List Byte} {s s' : State} (h : Counted file s)
    (hunread : s'.unread = s.unread) (hreads : s'.reads.map (·.1) = s.reads.map (·.1))
    (hsize : s'.sh.fileSize = s.sh.fileSize)
    (hbytes : s'.sh.bytesRead + s'.uncounted = s.sh.bytesRead + s.uncounted) :
    Counted file s' where
  content := by rw [hreads, hunread]; exact h.content
  nonempty := by
    have hmem : ∀ b ∈ s'.reads.map (·.1), b ≠ [] := by
      rw [hreads]
      simpa only [List.forall_mem_map] using h.nonempty
    simpa only [List.forall_mem_map] using hmem
  fileSize := hsize.trans h.fileSize
  bytesRead := by rw [hreads, hbytes]; exact h.bytesRead

theorem counted_producer {file : List Byte} {s s' : State} (hs : Counted file s)
    (h : Move s .producer s') : Counted file s' := by
  cases h <;> exact hs.congr rfl rfl rfl (by simp [State.uncounted, *])

theorem counted_read {file : List Byte} {s s' : State} {r : Option ℕ} (hs : Counted file s)
    (h : Move s (.read r) s') : Counted file s' := by
  cases h with
  | readFailed chunk hp => exact hs.congr rfl rfl rfl (by simp [State.uncounted, hp])
  | readNothing chunk hp =>
    refine hs.congr rfl rfl rfl ?_
    simp only [State.uncounted, hp]
    split_ifs <;> rfl
  | readBlock chunk n hp _ _ hn =>
    -- before the read every byte read is counted
    have hunc : s.uncounted = 0 := by rw [State.uncounted, hp]
    have hbytes := hs.bytesRead
    have hlen : (s.unread.take (n + 1)).length = n + 1 := by
      rw [List.length_take]
      omega
    refine ⟨?_, ?_, hs.fileSize, ?_⟩
    · simp only [List.map_append, List.map_cons, List.map_nil, List.flatten_append,
        List.flatten_cons, List.flatten_nil, List.append_nil, List.append_assoc,
        List.take_append_drop]
      exact hs.content
    · intro x hx
      rcases List.mem_append.mp hx with hx | hx
      · exact hs.nonempty x hx
      · rw [List.mem_singleton] at hx
        subst hx
        show s.unread.take (n + 1) ≠ []
        exact List.ne_nil_of_length_pos (by omega)
    · simp only [List.map_append, List.map_cons, List.map_nil, List.flatten_append,
        List.flatten_cons, List.flatten_nil, List.append_nil, List.length_append, hlen,
        State.uncounted]
      omega

theorem counted_producerSigqueue {file : List Byte} {s s' : State} {ok : Bool}
    (hs : Counted file s) (h : Move s (.producerSigqueue ok) s') : Counted file s' := by
  cases h with
  | blockSent chunk hp =>
    rcases sigqueueConsumer_cases s chunk with hq | hq <;> rw [hq] <;>
      exact hs.congr rfl (markQueued_map_fst _) rfl (by simp [State.uncounted, hp])
  | blockFailed chunk hp => exact hs.congr rfl rfl rfl (by simp [State.uncounted, hp])

theorem ReaderFrame.uncounted_eq {s s' : State} (h : ReaderFrame s s') :
    s'.uncounted = s.uncounted := by
  rcases h.producer with hp | ⟨hp, v, hp'⟩
  · rw [State.uncounted, State.uncounted, hp]
  · rw [State.uncounted, State.uncounted, hp, hp']

theorem counted_step {file : List Byte} {s s' : State} {a : Action} (hs : Counted file s)
    (h : step s a = some s') : Counted file s' := by
  rcases step_reader_cases h with hmove | ⟨r, hmove⟩ | ⟨ok, -, hmove⟩ | hframe
  · exact counted_producer hs hmove
  · exact counted_read hs hmove
  · exact counted_producerSigqueue hs hmove
  · exact hs.congr hframe.unread (by rw [hframe.reads]) hframe.fileSize
      (by rw [hframe.bytesRead, hframe.uncounted_eq])

theorem counted_of_run {file : List Byte} {tr : List (State × Action)} {s : State}
    (h : Run step (init file) tr s) : Counted file s :=
  h.invariant_all (counted_init file) fun _ _ _ ht hstep => counted_step ht hstep

/-! ## Lost blocks -/

/-- `producer_handler` has read a block and not yet tried to hand it over. -/
def State.holding (s : State) : Bool :=
  match s.producer with
  | some (.gotBlock _ _) | some (.sendBlock _) => true
  | _ => false

/-- Some block is read that will never be handed over. -/
def LostBlock (s : State) : Prop :=
  ∃ pre b post, s.reads = pre ++ (b, false) :: post ∧ (s.holding = true → post ≠ [])

theorem LostBlock.congr {s s' : State} (h : LostBlock s) (hreads : s'.reads = s.reads)
    (hhold : s'.holding = true → s.holding = true) : LostBlock s' := by
  obtain ⟨pre, b, post, hb, hpost⟩ := h
  exact ⟨pre, b, post, hreads.trans hb, fun hh => hpost (hhold hh)⟩

theorem markQueued_concat (reads : List (List Byte × Bool)) (r : List Byte × Bool) :
    markQueued (reads ++ [r]) = reads ++ [(r.1, true)] := by
  simp [markQueued]

/-- A block that is not the last one read is left as it is. -/
theorem markQueued_append_cons (pre post : List (List Byte × Bool)) (x : List Byte × Bool)
    (hpost : post ≠ []) :
    ∃ post', post' ≠ [] ∧ markQueued (pre ++ x :: post) = pre ++ x :: post' := by
  obtain ⟨post, y, rfl⟩ := (List.eq_nil_or_concat post).resolve_left hpost
  rw [List.concat_eq_append]
  refine ⟨post ++ [(y.1, true)], by simp, ?_⟩
  calc
    markQueued (pre ++ x :: (post ++ [y])) = markQueued ((pre ++ x :: post) ++ [y]) := by
      rw [List.append_assoc, List.cons_append]
    _ = pre ++ x :: (post ++ [(y.1, true)]) := by
      rw [markQueued_concat, List.append_assoc, List.cons_append]

theorem ReaderFrame.holding_eq {s s' : State} (h : ReaderFrame s s') :
    s'.holding = s.holding := by
  rcases h.producer with hp | ⟨hp, v, hp'⟩
  · rw [State.holding, State.holding, hp]
  · rw [State.holding, State.holding, hp, hp']

theorem lostBlock_read {s s' : State} {r : Option ℕ} (hs : LostBlock s)
    (h : Move s (.read r) s') : LostBlock s' := by
  cases h with
  | readFailed => exact hs.congr rfl (by simp [State.holding])
  | readNothing =>
    refine hs.congr rfl ?_
    simp only [State.holding]
    split_ifs <;> simp
  | readBlock chunk n =>
    -- the new block is behind the lost one
    obtain ⟨pre, b, post, hb, -⟩ := hs
    exact ⟨pre, b, post ++ [(s.unread.take (n + 1), false)], by simp [hb], by simp⟩

theorem lostBlock_producerSigqueue {s s' : State} {ok : Bool} (hs : LostBlock s)
    (h : Move s (.producerSigqueue ok) s') : LostBlock s' := by
  cases h with
  | blockFailed => exact hs.congr rfl (by simp [State.holding])
  | blockSent chunk hp =>
    -- only the last block read is marked, and the lost one is not the last
    obtain ⟨pre, b, post, hb, hpost⟩ := hs
    have hne : post ≠ [] := hpost (by simp [State.holding, hp])
    obtain ⟨post', hne', hmark⟩ := markQueued_append_cons pre post (b, false) hne
    exact ⟨pre, b, post', by simp only [hb, hmark], fun _ => hne'⟩

/-- A lost block stays lost. -/
theorem lostBlock_step {s s' : State} {a : Action} (hs : LostBlock s)
    (h : step s a = some s') : LostBlock s' := by
  rcases step_reader_cases h with hmove | ⟨r, hmove⟩ | ⟨ok, -, hmove⟩ | hframe
  · cases hmove <;> exact hs.congr rfl (by simp [State.holding, *])
  · exact lostBlock_read hs hmove
  · exact lostBlock_producerSigqueue hs hmove
  · exact hs.congr hframe.reads (by rw [hframe.holding_eq]; exact id)

theorem handed_length_le (reads : List (List Byte × Bool)) :
    ((reads.filter (·.2)).map (·.1)).flatten.length ≤ ((reads.map (·.1)).flatten).length := by
  induction reads with
  | nil => simp
  | cons r reads ih =>
    simp only [List.filter_cons, List.map_cons, List.flatten_cons, List.length_append]
    split
    · simp only [List.map_cons, List.flatten_cons, List.length_append]
      omega
    · omega

/-- A block that is not handed over is missing among those that are. -/
theorem handed_length_lt {reads : List (List Byte × Bool)} {b : List Byte}
    (hmem : (b, false) ∈ reads) (hb : b ≠ []) :
    ((reads.filter (·.2)).map (·.1)).flatten.length < ((reads.map (·.1)).flatten).length := by
  obtain ⟨pre, post, rfl⟩ := List.append_of_mem hmem
  have hpos : 0 < b.length := List.length_pos_iff.mpr hb
  have hpre := handed_length_le pre
  have hpost := handed_length_le post
  simp only [List.filter_append, List.map_append, List.flatten_append, List.filter_cons,
    List.map_cons, List.flatten_cons, List.length_append, Bool.false_eq_true, if_false]
  omega

/-- With a lost block, `output.txt` stays shorter than `input.txt`. -/
theorem LostBlock.output_length_lt {file : List Byte} {s : State} (h : LostBlock s)
    (hcount : Counted file s) (hord : InOrder s) : s.output.length < file.length := by
  obtain ⟨pre, b, post, hb, -⟩ := h
  have hmem : (b, false) ∈ s.reads := by simp [hb]
  have hlt : s.handedOver.flatten.length < ((s.reads.map (·.1)).flatten).length :=
    handed_length_lt hmem (hcount.nonempty _ hmem)
  have hout : s.output.length ≤ s.handedOver.flatten.length :=
    hord.output_start.length_le
  have hfile := congrArg List.length hcount.content
  rw [List.length_append] at hfile
  omega

/-- Every block read is handed over, but the one `producer_handler` is holding. -/
def AllHanded (s : State) : Prop :=
  if s.holding then ∃ pre b, s.reads = pre ++ [(b, false)] ∧ ∀ r ∈ pre, r.2 = true
  else ∀ r ∈ s.reads, r.2 = true

theorem AllHanded.congr {s s' : State} (h : AllHanded s) (hreads : s'.reads = s.reads)
    (hhold : s'.holding = s.holding) : AllHanded s' := by
  rw [AllHanded, hreads, hhold]
  exact h

theorem allHanded_read {s s' : State} {r : Option ℕ} (hs : AllHanded s)
    (h : Move s (.read r) s') : AllHanded s' := by
  cases h with
  | readFailed chunk hp => exact hs.congr rfl (by simp [State.holding, hp])
  | readNothing chunk hp =>
    refine hs.congr rfl ?_
    simp only [State.holding, hp]
    split_ifs <;> rfl
  | readBlock chunk n hp =>
    have hall : ∀ r ∈ s.reads, r.2 = true := by
      simpa [AllHanded, State.holding, hp] using hs
    exact ⟨s.reads, _, rfl, hall⟩

theorem allHanded_blockSent {s s' : State} (hs : AllHanded s)
    (h : Move s (.producerSigqueue true) s') : AllHanded s' := by
  cases h with
  | blockSent chunk hp =>
    simp only [AllHanded, State.holding, hp, if_true] at hs
    obtain ⟨pre, b, hb, hpre⟩ := hs
    have hall : ∀ r ∈ markQueued s.reads, r.2 = true := by
      rw [hb, markQueued_concat]
      simpa [or_imp, forall_and] using hpre
    rcases sigqueueConsumer_cases s chunk with hq | hq <;> rw [hq] <;> exact hall

/-- No block is lost while every `sigqueue` of `producer_handler` succeeds. -/
theorem allHanded_step {s s' : State} {a : Action} (hs : AllHanded s)
    (hok : a ≠ .producerSigqueue false) (h : step s a = some s') : AllHanded s' := by
  rcases step_reader_cases h with hmove | ⟨r, hmove⟩ | ⟨ok, rfl, hmove⟩ | hframe
  · cases hmove <;> exact hs.congr rfl (by simp [State.holding, *])
  · exact allHanded_read hs hmove
  · obtain rfl : ok = true := by simpa using hok
    exact allHanded_blockSent hs hmove
  · exact hs.congr hframe.reads hframe.holding_eq

/-! ## Closing `output.txt` -/

/-- `output.txt` is closed before the end of `input.txt` was written. -/
structure ClosedShort (file : List Byte) (s : State) : Prop where
  closed : s.outOpen = false
  opened : s.child ≠ .openOut
  short : s.output.length < file.length

theorem closedShort_step {file : List Byte} {s s' : State} {a : Action}
    (hs : ClosedShort file s) (h : step s a = some s') : ClosedShort file s' := by
  obtain ⟨hclosed, hopened, hout⟩ := step_closed_frame h hs.closed hs.opened
  exact ⟨hclosed, hopened, by rw [hout]; exact hs.short⟩

/-- With an idle handler all the blocks but the pending ones are written. -/
theorem Draining.idle {s : State} {done owed} (h : Draining s done owed)
    (hc : s.consumer = none) :
    s.output = done.flatten ∧ owed.map (fun p => (p.1 : ℤ)) = s.consumerQueue := by
  constructor
  · simpa [State.written, hc] using h.output
  · simpa [State.working, hc] using h.values

/-- A live consumer with an idle handler has written all the blocks but the pending ones. -/
theorem InOrder.idle {s : State} (hord : InOrder s) (hs : Orderly s)
    (hbefore : s.child.beforeClose = true) (hrun : s.childRunning = true)
    (hc : s.consumer = none) :
    ∃ (done : List (List Byte)) (owed : List (ChunkNum × List Byte)),
      s.handedOver = done ++ owed.map Prod.snd ∧ s.output = done.flatten ∧
      owed.map (fun p => (p.1 : ℤ)) = s.consumerQueue := by
  rcases hord.consumer with hstop | ⟨done, owed, hdrain⟩
  · have hfine := hs.consumerFine hbefore
    rcases hstop.stopped with h | h | h | h
    · simp [hfine.accepting] at h
    · simp [hrun] at h
    · simp [hc] at h
    · simp [hc] at h
  · exact ⟨done, owed, hdrain.handed, hdrain.idle hc⟩

/-- While a block is pending, `output.txt` is shorter than `input.txt`. -/
theorem output_length_lt_of_pending {file : List Byte} {s : State} {done : List (List Byte)}
    {owed : List (ChunkNum × List Byte)} (hcount : Counted file s)
    (hhanded : s.handedOver = done ++ owed.map Prod.snd) (hout : s.output = done.flatten)
    (howed : owed ≠ []) : s.output.length < file.length := by
  obtain ⟨p, rest, rfl⟩ := List.exists_cons_of_ne_nil howed
  -- the pending block is not empty, and it is part of `input.txt`
  have hmem : p.2 ∈ s.handedOver := by simp [hhanded]
  obtain ⟨r, hr, hrp⟩ := List.mem_map.mp hmem
  have hpos : 0 < p.2.length := by
    rw [← hrp]
    exact List.length_pos_iff.mpr (hcount.nonempty r (List.mem_of_mem_filter hr))
  have hle : s.handedOver.flatten.length ≤ ((s.reads.map (·.1)).flatten).length :=
    handed_length_le s.reads
  have hfile := congrArg List.length hcount.content
  simp only [hhanded, List.map_cons, List.flatten_append, List.flatten_cons,
    List.length_append] at hle hfile
  rw [hout]
  omega

theorem ChildPc.beforeClose_of_closing {pc : ChildPc} (h : pc.closing = true) :
    pc.beforeClose = true := by
  cases pc <;> simp_all [ChildPc.closing, ChildPc.beforeClose]

/-- The step that closes `output.txt`. -/
theorem Move.child_of_closing {s s' : State} (h : Move s .child s')
    (hclosing : s.child.closing = true) :
    s'.outOpen = false ∧ s'.child ≠ .openOut ∧ s'.output = s.output ∧ s'.reads = s.reads ∧
      s'.sh.producerEnded = s.sh.producerEnded := by
  cases h with
  | closeOut => exact ⟨rfl, by simp, rfl, rfl, rfl⟩
  | _ => simp_all [ChildPc.closing]

/-- The child closes `output.txt` with a block still pending. -/
theorem closedShort_of_pending {file : List Byte} {s s' : State} (hs : Orderly s)
    (hord : InOrder s) (hcount : Counted file s) (h : Move s .child s')
    (hclosing : s.child.closing = true) (hpending : s.consumerQueue ≠ []) :
    ClosedShort file s' := by
  obtain ⟨pc, ppidParent, outOpen, -, -, hrun, -⟩ := h.child_frame
  obtain ⟨done, owed, hhanded, hout, hqueue⟩ :=
    hord.idle hs (ChildPc.beforeClose_of_closing hclosing) hrun h.consumer_of_child
  obtain ⟨hclosed, hopened, houtput, -, -⟩ := h.child_of_closing hclosing
  refine ⟨hclosed, hopened, ?_⟩
  rw [houtput]
  exact output_length_lt_of_pending hcount hhanded hout fun hnil => hpending (by
    rw [← hqueue, hnil, List.map_nil])

/-- `output.txt` is closed with all the blocks handed over written to it. -/
structure Complete (s : State) : Prop where
  ended : s.sh.producerEnded ≠ .notEnded
  closed : s.outOpen = false
  opened : s.child ≠ .openOut
  output : s.output = s.handedOver.flatten

/-- The child closes `output.txt` with no block pending. -/
theorem complete_of_closing {s s' : State} (hs : Orderly s) (hord : InOrder s)
    (h : Move s .child s') (hclosing : s.child.closing = true) (hidle : s.consumerQueue = []) :
    Complete s' := by
  obtain ⟨pc, ppidParent, outOpen, -, -, hrun, -⟩ := h.child_frame
  obtain ⟨done, owed, hhanded, hout, hqueue⟩ :=
    hord.idle hs (ChildPc.beforeClose_of_closing hclosing) hrun h.consumer_of_child
  obtain ⟨hclosed, hopened, houtput, hreads, hended⟩ := h.child_of_closing hclosing
  refine ⟨?_, hclosed, hopened, ?_⟩
  · rw [hended]
    intro hend
    have hchild := (hs.copying hend).child
    cases hpc : s.child <;>
      simp [hpc, ChildPc.closing, ChildPc.starting, ChildPc.copying] at hclosing hchild
  · rw [hidle, List.map_eq_nil_iff] at hqueue
    rw [houtput, State.handedOver, hreads]
    rw [hqueue, List.map_nil, List.append_nil] at hhanded
    rw [hout, ← hhanded, State.handedOver]

/-- Once `output.txt` is closed, no block is read or handed over. -/
theorem complete_step {s s' : State} {a : Action} (hs : Complete s) (hord : Orderly s)
    (h : step s a = some s') (hend : s'.sh.producerEnded ≠ .notEnded) : Complete s' := by
  obtain ⟨hclosed, hopened, houtput⟩ := step_closed_frame h hs.closed hs.opened
  refine ⟨hend, hclosed, hopened, ?_⟩
  have hreads : s'.reads = s.reads := by
    rcases step_reader_cases h with hmove | ⟨r, hmove⟩ | ⟨ok, -, hmove⟩ | hframe
    · obtain ⟨_, _, _, _, _, _, rfl⟩ := hmove.producer_frame
      rfl
    · obtain ⟨⟨c, hc⟩, -⟩ := hmove.read_frame
      exact absurd (hord.notEnded hc (by simp)) hs.ended
    · obtain ⟨⟨c, hc⟩, -⟩ := hmove.producerSigqueue_frame
      exact absurd (hord.notEnded hc (by simp)) hs.ended
    · exact hframe.reads
  rw [houtput, State.handedOver, hreads]
  exact hs.output

/-! ## Runs that lose no block -/

/-- `PROD_END_SUCC` is only stored when every byte of `input.txt` is counted. -/
def SuccCounted (s : State) : Prop :=
  s.sh.producerEnded = .prodEndSucc → s.sh.bytesRead = s.sh.fileSize

theorem succCounted_producer {s s' : State} (hs : SuccCounted s) (hord : Orderly s)
    (h : Move s .producer s') : SuccCounted s' := by
  cases h with
  | producerChunk | producerNoChunk | producerIgnore => exact hs
  | countBlock _ _ hp =>
    intro hsucc
    have hno := hord.notEnded hp (by simp)
    simp [hno] at hsucc
  | producerFail => simp [SuccCounted]
  | producerEnd =>
    simp only [SuccCounted]
    split
    next heq => exact fun _ => heq
    next => simp

theorem succCounted_step {s s' : State} {a : Action} (hs : SuccCounted s) (hord : Orderly s)
    (h : step s a = some s') : SuccCounted s' := by
  rcases step_reader_cases h with hmove | ⟨r, hmove⟩ | ⟨ok, -, hmove⟩ | hframe
  · exact succCounted_producer hs hord hmove
  · obtain ⟨-, _, _, _, _, _, rfl⟩ := hmove.read_frame
    exact hs
  · obtain ⟨-, _, _, _, _, rfl, -⟩ := hmove.producerSigqueue_frame
    exact hs
  · rw [SuccCounted, hframe.producerEnded, hframe.bytesRead, hframe.fileSize]
    exact hs

/-- What holds along a run that loses no block. -/
structure Sound (s : State) : Prop where
  orderly : Orderly s
  allHanded : AllHanded s
  complete : s.child.finished = true → Complete s
  succCounted : SuccCounted s

theorem sound_init (file : List Byte) : Sound (init file) where
  orderly := orderly_init file
  allHanded := by simp [AllHanded, State.holding, init]
  complete := by simp [init, ChildPc.finished]
  succCounted := by simp [SuccCounted, init]

/-- `sigqueue` does not fail for a block, since the child is still waiting. -/
theorem Orderly.ne_producerSigqueue_false {s s' : State} {a : Action} (hs : Orderly s)
    (hdep : Dependable s a) (hno : LosesNoBlock s a) (h : step s a = some s') :
    a ≠ .producerSigqueue false := by
  rintro rfl
  obtain ⟨⟨c, hc⟩, -⟩ := (move_of_step h).producerSigqueue_frame
  have hcopy := hs.child_copying (hs.notEnded hc (by simp)) (Or.inr (Or.inl (by simp [hc])))
  simp only [Dependable, LosesNoBlock] at hdep hno
  simp [hno, childRunning_of_copying hcopy] at hdep

theorem Move.closing_of_finished {s s' : State} (h : Move s .child s')
    (hfin : s'.child.finished = true) :
    s.child.closing = true ∨ s.child.finished = true := by
  cases h with
  | closeOut _ _ hpc => exact Or.inl (by rw [hpc]; rfl)
  | childDetach _ _ hpc | childExit _ _ hpc => exact Or.inr (by rw [hpc]; rfl)
  | childTestProducer =>
    dsimp only at hfin
    split at hfin <;> cases hfin
  | storePpid | tokensSent | childPause | childTestConsumer => cases hfin

theorem sound_step {s s' : State} {a : Action} (hs : Sound s) (hord : InOrder s)
    (hdep : Dependable s a) (hno : LosesNoBlock s a) (h : step s a = some s') : Sound s' := by
  have horderly := orderly_step hs.orderly hord (hdep.reliable hno) h
  refine ⟨horderly, ?_, fun hfin => ?_, succCounted_step hs.succCounted hs.orderly h⟩
  · exact allHanded_step hs.allHanded (hs.orderly.ne_producerSigqueue_false hdep hno h) h
  · have hended : s'.sh.producerEnded ≠ .notEnded := fun hend => by
      have hchild := (horderly.copying hend).child
      cases hpc : s'.child <;>
        simp [hpc, ChildPc.finished, ChildPc.starting, ChildPc.copying] at hfin hchild
    by_cases ha : a = .child
    · subst ha
      rcases (move_of_step h).closing_of_finished hfin with hclosing | hold
      · exact complete_of_closing hs.orderly hord (move_of_step h) hclosing (hno hclosing)
      · exact complete_step (hs.complete hold) hs.orderly h hended
    · exact complete_step (hs.complete (step_child_frame h ha hfin)) hs.orderly h hended

/-- A step that loses a block makes the output fall short for good. -/
theorem Sound.lost {file : List Byte} {s s' : State} {a : Action} (hs : Sound s)
    (hord : InOrder s) (hcount : Counted file s) (hno : ¬ LosesNoBlock s a)
    (h : step s a = some s') : LostBlock s' ∨ ClosedShort file s' := by
  have hmove := move_of_step h
  cases a <;> simp only [LosesNoBlock, not_true_eq_false] at hno
  case child =>
    push Not at hno
    exact Or.inr (closedShort_of_pending hs.orderly hord hcount hmove hno.1 hno.2)
  case producerSigqueue ok =>
    left
    cases hmove with
    | blockSent _ _ hpid => exact absurd hpid hno
    | blockFailed chunk hp =>
      have hlast := hord.lastBlock
      simp only [LastBlock, hp] at hlast
      obtain ⟨reads, b, hb, -⟩ := hlast
      exact ⟨reads, b, [], hb, by simp [State.holding]⟩

/-- Along a run whose calls are dependable, either no block is lost, or the output has fallen
short for good. -/
theorem sound_or_short_of_run {file : List Byte} {tr : List (State × Action)} {s : State}
    (h : Run step (init file) tr s) (hdep : StepsMeet Dependable tr) :
    (StepsMeet LosesNoBlock tr → Sound s) ∧
      (¬ StepsMeet LosesNoBlock tr → LostBlock s ∨ ClosedShort file s) := by
  induction h with
  | nil => simpa using sound_init file
  | @snoc tr t u a hrun hlast ih =>
    simp only [stepsMeet_snoc] at hdep ⊢
    obtain ⟨ihsound, ihshort⟩ := ih hdep.1
    have hord := inOrder_of_run hrun
    refine ⟨fun hno => sound_step (ihsound hno.1) hord hdep.2 hno.2 hlast, fun hno => ?_⟩
    by_cases hmeet : StepsMeet LosesNoBlock tr
    · exact (ihsound hmeet).lost hord (counted_of_run hrun) (fun h => hno ⟨hmeet, h⟩) hlast
    · rcases ihshort hmeet with hlost | hshort
      · exact Or.inl (lostBlock_step hlost hlast)
      · exact Or.inr (closedShort_step hshort hlast)

/-- With `PROD_END_SUCC` and `output.txt` closed, a run that lost no block copied the file. -/
theorem Sound.output_eq {file : List Byte} {s : State} (hs : Sound s) (hcount : Counted file s)
    (hfin : s.child.finished = true) (hsucc : s.sh.producerEnded = .prodEndSucc) :
    s.output = file := by
  have hended : s.sh.producerEnded ≠ .notEnded := by simp [hsucc]
  have hidle : s.holding = false := by
    rcases (hs.orderly.ended hended).ignoring with hp | ⟨hp, -⟩ <;> rw [State.holding, hp]
  have hall : ∀ r ∈ s.reads, r.2 = true := by
    simpa [AllHanded, hidle] using hs.allHanded
  have hhanded : s.handedOver = s.reads.map (·.1) := by
    rw [State.handedOver, List.filter_eq_self.mpr hall]
  have hbytes := hcount.bytesRead
  rw [hs.succCounted hsucc, hcount.fileSize] at hbytes
  have hunread : s.unread = [] := by
    have := congrArg List.length hcount.content
    rw [List.length_append] at this
    exact List.eq_nil_of_length_eq_zero (by omega)
  calc
    s.output = (s.reads.map (·.1)).flatten := by rw [(hs.complete hfin).output, hhanded]
    _ = file := by simpa [hunread] using hcount.content

/-- When the child has left its loop and exited, and `producer_ended` is `PROD_END_SUCC`,
`output.txt` is `input.txt` exactly if no step of the run has lost a block. -/
theorem output_eq_iff_of_run {file : List Byte} {tr : List (State × Action)} {s : State}
    {code : ℕ} (h : Run step (init file) tr s) (hdep : StepsMeet Dependable tr)
    (hexit : s.child = .exited code) (hsucc : s.sh.producerEnded = .prodEndSucc) :
    s.output = file ↔ StepsMeet LosesNoBlock tr := by
  obtain ⟨hsound, hshort⟩ := sound_or_short_of_run h hdep
  have hcount := counted_of_run h
  constructor
  · intro hout
    by_contra hno
    have hlt : s.output.length < file.length := by
      rcases hshort hno with hlost | hclosed
      · exact hlost.output_length_lt hcount (inOrder_of_run h)
      · exact hclosed.short
    rw [hout] at hlt
    exact lt_irrefl _ hlt
  · intro hno
    exact (hsound hno).output_eq hcount (by rw [hexit]; rfl) hsucc

/-- The child's main program from its last test of `producer_ended` on. -/
def childExit : List Action :=
  List.replicate 5 .child

private theorem copy_executes :
    (execute step (fun s a => decide (Dependable s a ∧ LosesNoBlock s a)) (init [7])
      (childStart ++ [Action.parent] ++ copyBlock 1 ++ endOfFile ++ childExit)).isSome = true := by
  decide

/-- `output_eq_iff_of_run` at a copy of one byte that loses nothing. -/
theorem output_eq_iff_of_run_one_byte :
    ∃ s, Reachable step (init [7]) s ∧ s.child = .exited 1 ∧
      s.sh.producerEnded = .prodEndSucc ∧ s.output = [7] := by
  obtain ⟨tr, h, hmeet⟩ := exists_run_of_isSome copy_executes
  have hdep : StepsMeet Dependable tr := hmeet.mono fun s a h => (of_decide_eq_true h).1
  have hno : StepsMeet LosesNoBlock tr := hmeet.mono fun s a h => (of_decide_eq_true h).2
  have hexit : ((execute step _ (init [7]) _).get copy_executes).child = .exited 1 := by decide
  have hsucc : ((execute step _ (init [7]) _).get copy_executes).sh.producerEnded
      = .prodEndSucc := by decide
  exact ⟨_, ⟨tr, h⟩, hexit, hsucc, (output_eq_iff_of_run h hdep hexit hsucc).mpr hno⟩

/-- The first token reaches `producer_handler` before the parent has stored the child's pid;
the second one meets the end of the file. -/
def pidTooLate : List Action :=
  childTokens ++ [Action.deliverProducer, .producer, .read (some 1), .producer,
    .producerSigqueue false, .producer] ++ endOfFile ++ childExit

private theorem pidTooLate_executes :
    (execute step (fun s a => decide (Dependable s a)) (init [7]) pidTooLate).isSome = true := by
  decide

/-- The child has exited with `producer_ended = PROD_END_SUCC` and `output.txt` is empty. -/
theorem empty_output_one_byte :
    ∃ tr s, Run step (init [7]) tr s ∧ StepsMeet Dependable tr ∧ s.child = .exited 1 ∧
      s.sh.producerEnded = .prodEndSucc ∧ s.output ≠ [7] := by
  obtain ⟨tr, h, hmeet⟩ := exists_run_of_isSome pidTooLate_executes
  exact ⟨tr, _, h, hmeet.mono fun s a h => of_decide_eq_true h, by decide, by decide, by decide⟩

end SignalCopy
