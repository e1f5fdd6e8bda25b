import Mathlib

/-!
# Chains of filters

A filter reads one stream and writes another, a symbol at a time, and exits at some point, whether
it has read everything or not. In a chain each filter writes the channel that the next one reads.
The filters take their steps in any order. Reading from an empty channel waits for the filter in
front as long as that has not ended, and a filter may be ended by others once nobody reads what it
writes.

## Main results

* `Owes.move`: whatever filter moves, what the last channel has and what is still owed to it stays
  the same, and less is left to do;
* `owes_init`: at first the last channel is owed what the filters compute one after the other;
* `ended_of_stuck`: in channels with room for one symbol, some filter can go on as long as one has
  not ended.
-/

namespace Filters

variable {σ β : Type*}

/-! ## Filters -/

/-- What a filter does next. -/
inductive Next (σ β : Type*) where
  /-- It reads a symbol, or `none` at the end of the stream. -/
  | read (k : Option β → σ)
  | write (b : β) (q : σ)
  | exit (code : ℕ)

/-- From `p` on, a filter with `input` to read writes `output` and exits, in this many steps. It
may leave some of the input unread. -/
inductive Computes (next : σ → Next σ β) : σ → List β → List β → ℕ → Prop
  | read {p : σ} {k : Option β → σ} {b : β} {input output : List β} {steps : ℕ} :
      next p = .read k → Computes next (k (some b)) input output steps →
      Computes next p (b :: input) output (steps + 1)
  | eof {p : σ} {k : Option β → σ} {output : List β} {steps : ℕ} :
      next p = .read k → Computes next (k none) [] output steps →
      Computes next p [] output (steps + 1)
  | write {p q : σ} {b : β} {input output : List β} {steps : ℕ} :
      next p = .write b q → Computes next q input output steps →
      Computes next p input (b :: output) (steps + 1)
  | exit {p : σ} {input : List β} {code : ℕ} : next p = .exit code → Computes next p input [] 1

variable {next : σ → Next σ β} {p q : σ} {k : Option β → σ} {b : β} {input output : List β}
  {code steps : ℕ}

theorem Computes.of_read (h : Computes next p (b :: input) output steps)
    (hnext : next p = .read k) :
    ∃ m < steps, Computes next (k (some b)) input output m := by
  cases h with
  | read hp hrest =>
    obtain rfl := Next.read.inj (hp.symm.trans hnext)
    exact ⟨_, Nat.lt_succ_self _, hrest⟩
  | write hp _ => cases hp.symm.trans hnext
  | exit hp => cases hp.symm.trans hnext

theorem Computes.of_eof (h : Computes next p [] output steps) (hnext : next p = .read k) :
    ∃ m < steps, Computes next (k none) [] output m := by
  cases h with
  | eof hp hrest =>
    obtain rfl := Next.read.inj (hp.symm.trans hnext)
    exact ⟨_, Nat.lt_succ_self _, hrest⟩
  | write hp _ => cases hp.symm.trans hnext
  | exit hp => cases hp.symm.trans hnext

theorem Computes.of_write (h : Computes next p input output steps) (hnext : next p = .write b q) :
    ∃ rest, output = b :: rest ∧ ∃ m < steps, Computes next q input rest m := by
  cases h with
  | read hp _ | eof hp _ | exit hp => cases hp.symm.trans hnext
  | write hp hrest =>
    obtain ⟨rfl, rfl⟩ := Next.write.inj (hp.symm.trans hnext)
    exact ⟨_, rfl, _, Nat.lt_succ_self _, hrest⟩

theorem Computes.of_exit (h : Computes next p input output steps) (hnext : next p = .exit code) :
    output = [] := by
  cases h with
  | read hp _ | eof hp _ | write hp _ => cases hp.symm.trans hnext
  | exit _ => rfl

theorem Computes.steps_pos (h : Computes next p input output steps) : 0 < steps := by
  cases h <;> omega

/-! ## Chains -/

/-- Filters in a row. The filter `j` reads the channel `j` and writes the channel `j + 1`. -/
structure Chain (σ β : Type*) where
  /-- Each filter where it is; `none` once it has ended. -/
  filters : ℕ → Option σ
  channels : ℕ → List β

/-- One step of one of the first `n` filters. -/
inductive Move (next : σ → Next σ β) (n : ℕ) (c : Chain σ β) : Chain σ β → Prop
  | read {j : ℕ} {p : σ} {k : Option β → σ} {b : β} {rest : List β} :
      j < n → c.filters j = some p → next p = .read k → c.channels j = b :: rest →
      Move next n c
        ⟨Function.update c.filters j (some (k (some b))), Function.update c.channels j rest⟩
  | eof {j : ℕ} {p : σ} {k : Option β → σ} :
      j < n → c.filters j = some p → next p = .read k → c.channels j = [] →
      (∀ i, j = i + 1 → c.filters i = none) →
      Move next n c ⟨Function.update c.filters j (some (k none)), c.channels⟩
  | write {j : ℕ} {p q : σ} {b : β} :
      j < n → c.filters j = some p → next p = .write b q →
      Move next n c ⟨Function.update c.filters j (some q),
        Function.update c.channels (j + 1) (c.channels (j + 1) ++ [b])⟩
  | exit {j : ℕ} {p : σ} {code : ℕ} :
      j < n → c.filters j = some p → next p = .exit code →
      Move next n c ⟨Function.update c.filters j none, c.channels⟩
  /-- It is ended because the filter behind it has. -/
  | kill {j : ℕ} {p : σ} :
      j + 1 < n → c.filters j = some p → c.filters (j + 1) = none →
      Move next n c ⟨Function.update c.filters j none, c.channels⟩

/-! ## What is computed -/

/-- `owed k` is what will still be written to the channel `k`, and `steps j` is how many steps the
filter `j` has still to take. -/
structure Owes (next : σ → Next σ β) (n : ℕ) (c : Chain σ β) (owed : ℕ → List β)
    (steps : ℕ → ℕ) : Prop where
  first : owed 0 = []
  running : ∀ j < n, ∀ p, c.filters j = some p →
    Computes next p (c.channels j ++ owed j) (owed (j + 1)) (steps j)
  ended : ∀ j < n, c.filters j = none → owed (j + 1) = []

variable {n : ℕ} {c c' : Chain σ β} {owed : ℕ → List β} {left : ℕ → ℕ}

/-- With less to do for one filter there is less to do. -/
theorem sum_update_lt {j m : ℕ} (hj : j < n) (hm : m < left j) :
    ∑ i ∈ Finset.range n, Function.update left j m i < ∑ i ∈ Finset.range n, left i := by
  refine Finset.sum_lt_sum (fun i _ => ?_) ⟨j, Finset.mem_range.mpr hj, by simpa using hm⟩
  by_cases hi : i = j
  · simpa [hi] using hm.le
  · simp [hi]

/-- A filter goes on with `q`, which owes the same from what is left in its channel. -/
theorem Owes.advance {j m : ℕ} {data : List β} (h : Owes next n c owed left)
    (hq : Computes next q (data ++ owed j) (owed (j + 1)) m) :
    Owes next n ⟨Function.update c.filters j (some q), Function.update c.channels j data⟩ owed
      (Function.update left j m) where
  first := h.first
  running i hi p hp := by
    by_cases hij : i = j
    · subst hij
      obtain rfl : q = p := by simpa using hp
      simpa using hq
    · simp only [Function.update_of_ne hij] at hp ⊢
      exact h.running i hi p hp
  ended i hi hp := by
    by_cases hij : i = j
    · simp [hij] at hp
    · exact h.ended i hi (by simpa [hij] using hp)

/-- A filter goes on with `q` behind a symbol: what it owed is in the channel now. -/
theorem Owes.emit {j m : ℕ} {rest : List β} (h : Owes next n c owed left)
    (howed : owed (j + 1) = b :: rest)
    (hq : Computes next q (c.channels j ++ owed j) rest m) :
    Owes next n
      ⟨Function.update c.filters j (some q),
        Function.update c.channels (j + 1) (c.channels (j + 1) ++ [b])⟩
      (Function.update owed (j + 1) rest) (Function.update left j m) where
  first := by simpa using h.first
  running i hi p hp := by
    -- what each filter has still to read is the same, in the channel or to come
    have hstream : Function.update c.channels (j + 1) (c.channels (j + 1) ++ [b]) i ++
        Function.update owed (j + 1) rest i = c.channels i ++ owed i := by
      by_cases hij : i = j + 1
      · simp [hij, howed]
      · simp [hij]
    rw [hstream]
    by_cases hij : i = j
    · subst hij
      obtain rfl : q = p := by simpa using hp
      simpa using hq
    · rw [Function.update_of_ne (by omega), Function.update_of_ne hij]
      exact h.running i hi p (by simpa [hij] using hp)
  ended i hi hp := by
    by_cases hij : i = j
    · simp [hij] at hp
    · rw [Function.update_of_ne (by omega)]
      exact h.ended i hi (by simpa [hij] using hp)

/-- The end of a filter that owes nothing, or whose output nobody reads. -/
theorem Owes.stop {j : ℕ} (h : Owes next n c owed left)
    (hreader : j + 1 < n → owed (j + 1) ≠ [] → c.filters (j + 1) = none) :
    Owes next n ⟨Function.update c.filters j none, c.channels⟩ (Function.update owed (j + 1) [])
      (Function.update left j 0) where
  first := by simpa using h.first
  running i hi p hp := by
    have hne : i ≠ j := by
      rintro rfl
      simp at hp
    simp only [Function.update_of_ne hne] at hp ⊢
    have hrun := h.running i hi p hp
    have hout : Function.update owed (j + 1) [] (i + 1) = owed (i + 1) :=
      Function.update_of_ne (by omega) _ _
    rw [hout]
    by_cases hij : i = j + 1
    · subst hij
      -- the filter behind still runs, so that nothing is taken away from it
      have hnil : owed (j + 1) = [] := by
        by_contra howed
        simp [hreader hi howed] at hp
      rw [Function.update_self, ← hnil]
      exact hrun
    · rwa [Function.update_of_ne hij]
  ended i hi hp := by
    by_cases hij : i = j
    · simp [hij]
    · rw [Function.update_of_ne (by omega)]
      exact h.ended i hi (by simpa [hij] using hp)

/-- Whatever filter moves, the last channel gets the same in the end, and less is left to do. -/
theorem Owes.move (h : Owes next n c owed left) (hmove : Move next n c c') :
    ∃ owed' left', Owes next n c' owed' left' ∧
      c'.channels n ++ owed' n = c.channels n ++ owed n ∧
      ∑ j ∈ Finset.range n, left' j < ∑ j ∈ Finset.range n, left j := by
  cases hmove with
  | @read j p k b rest hj hp hnext hdata =>
    have hrun := h.running j hj p hp
    rw [hdata, List.cons_append] at hrun
    obtain ⟨m, hm, hrest⟩ := hrun.of_read hnext
    refine ⟨owed, _, h.advance hrest, ?_, sum_update_lt hj hm⟩
    simp [Function.update_of_ne (show n ≠ j by omega)]
  | @eof j p k hj hp hnext hdata hfront =>
    have hnil : owed j = [] := by
      cases j with
      | zero => exact h.first
      | succ i => exact h.ended i (by omega) (hfront i rfl)
    have hrun := h.running j hj p hp
    rw [hdata, hnil, List.append_nil] at hrun
    obtain ⟨m, hm, hrest⟩ := hrun.of_eof hnext
    have hsame : c.channels j ++ owed j = [] := by simp [hdata, hnil]
    -- nothing is taken from the channel
    have howes := h.advance (hsame ▸ hrest)
    rw [Function.update_eq_self] at howes
    exact ⟨owed, _, howes, rfl, sum_update_lt hj hm⟩
  | @write j p q b hj hp hnext =>
    obtain ⟨rest, howed, m, hm, hrest⟩ := (h.running j hj p hp).of_write hnext
    refine ⟨_, _, h.emit howed hrest, ?_, sum_update_lt hj hm⟩
    by_cases hlast : n = j + 1
    · subst hlast
      simp [howed]
    · simp [hlast]
  | @exit j p code hj hp hnext =>
    have hrun := h.running j hj p hp
    have hnil := hrun.of_exit hnext
    refine ⟨_, _, h.stop fun _ howed => absurd hnil howed, ?_, sum_update_lt hj hrun.steps_pos⟩
    by_cases hlast : n = j + 1
    · subst hlast
      simp [hnil]
    · simp [hlast]
  | @kill j p hj hp hbehind =>
    have hrun := h.running j (by omega) p hp
    refine ⟨_, _, h.stop fun _ _ => hbehind, ?_, sum_update_lt (by omega) hrun.steps_pos⟩
    simp [Function.update_of_ne (show n ≠ j + 1 by omega)]

/-- Once all filters have ended, nothing is owed. -/
theorem Owes.eq_nil (h : Owes next n c owed left) (hended : ∀ j < n, c.filters j = none) :
    owed n = [] := by
  cases n with
  | zero => exact h.first
  | succ j => exact h.ended j (Nat.lt_succ_self j) (hended j (Nat.lt_succ_self j))

/-- At first, each filter has what the one in front will write still to come. -/
theorem owes_init (streams : ℕ → List β) (hfirst : c.channels 0 = streams 0)
    (hempty : ∀ k < n, c.channels (k + 1) = [])
    (hruns : ∀ j < n, ∃ p, c.filters j = some p ∧
      Computes next p (streams j) (streams (j + 1)) (left j)) :
    Owes next n c (fun k => if k = 0 then [] else streams k) left where
  first := rfl
  running j hj p hp := by
    obtain ⟨q, hq, hcomputes⟩ := hruns j hj
    obtain rfl : q = p := Option.some.inj (hq.symm.trans hp)
    cases j with
    | zero => simpa [hfirst] using hcomputes
    | succ i => simpa [hempty i (by omega)] using hcomputes
  ended j hj hp := by
    obtain ⟨q, hq, -⟩ := hruns j hj
    simp [hp] at hq

/-! ## Progress -/

/-- The filter `j` can take its next step, where the channels between the first `n` filters have
room for `capacity` symbols. -/
def CanMove (next : σ → Next σ β) (n capacity : ℕ) (c : Chain σ β) (j : ℕ) : Prop :=
  ∃ p, c.filters j = some p ∧
    match next p with
    | .read _ => c.channels j ≠ [] ∨ ∀ i, j = i + 1 → c.filters i = none
    | .write _ _ =>
        j + 1 = n ∨ (c.channels (j + 1)).length < capacity ∨ c.filters (j + 1) = none
    | .exit _ => True

variable {capacity j : ℕ}

/-- Where no filter can go on, none is writing: the one behind it would have to be writing too. -/
theorem not_write_of_stuck (hcapacity : 0 < capacity)
    (hstuck : ∀ j < n, ¬ CanMove next n capacity c j) (hj : j < n) (hp : c.filters j = some p) :
    next p ≠ .write b q := by
  induction hd : n - j generalizing j p b q with
  | zero => omega
  | succ d ih =>
    intro hnext
    have hno := hstuck j hj
    simp only [CanMove, hp, Option.some.injEq, exists_eq_left', hnext, not_or, not_lt] at hno
    obtain ⟨hlast, hfull, hbehind⟩ := hno
    obtain ⟨r, hr⟩ := Option.ne_none_iff_exists'.mp hbehind
    -- the channel is full, so that the filter behind it is not waiting for it
    have hmore : j + 1 < n := by omega
    have hno := hstuck (j + 1) hmore
    cases hbehind : next r with
    | read k =>
      simp only [CanMove, hr, Option.some.injEq, exists_eq_left', hbehind, not_or, not_not] at hno
      rw [hno.1, List.length_nil] at hfull
      omega
    | write b' q' => exact ih hmore hr (by omega) hbehind
    | exit code => simp [CanMove, hr, hbehind] at hno

/-- Where no filter can go on, all have ended: one that reads waits for the one in front. -/
theorem ended_of_stuck (hcapacity : 0 < capacity)
    (hstuck : ∀ j < n, ¬ CanMove next n capacity c j) (hj : j < n) : c.filters j = none := by
  induction j with
  | zero =>
    cases hp : c.filters 0 with
    | none => rfl
    | some p =>
      have hno := hstuck 0 hj
      cases hnext : next p with
      | read k => simp [CanMove, hp, hnext] at hno
      | write b q => exact absurd hnext (not_write_of_stuck hcapacity hstuck hj hp)
      | exit code => simp [CanMove, hp, hnext] at hno
  | succ i ih =>
    cases hp : c.filters (i + 1) with
    | none => rfl
    | some p =>
      have hno := hstuck (i + 1) hj
      cases hnext : next p with
      | read k => simp [CanMove, hp, hnext, ih (by omega)] at hno
      | write b q => exact absurd hnext (not_write_of_stuck hcapacity hstuck hj hp)
      | exit code => simp [CanMove, hp, hnext] at hno

end Filters
