import BakaDns.Server

/-!
# Reading a body over TLS

The loop of `ssl_resolv_and_respond` that collects the body of a request. Every round asks for a
whole buffer behind the bytes it has, and it stops at the expected size or at -1, so neither a
second chunk nor the end of the stream is what it was written for.
-/

namespace BakaDns

section Loop

variable {expected fuel k n : ℕ} {reads : ℕ → SslRead} {recvbuf b : List UInt8}

theorem receiveLoop_complete (h : recvbuf.length = expected) :
    receiveLoop expected reads fuel k recvbuf = ([], .ok (false, recvbuf)) := by
  cases fuel <;> simp [receiveLoop, h]

theorem receiveLoop_failed (h : recvbuf.length ≠ expected) (hread : reads k = .failed) :
    receiveLoop expected reads (fuel + 1) k recvbuf =
      ([.sslRead recvbuf.length tlsBufferSize], .ok (true, recvbuf)) := by
  simp [receiveLoop, h, hread]

theorem receiveLoop_overrun (h : recvbuf.length ≠ expected) (hread : reads k = .data b)
    (hlong : tlsBufferSize < recvbuf.length + b.length) :
    receiveLoop expected reads (fuel + 1) k recvbuf =
      ([.sslRead recvbuf.length tlsBufferSize], .error .crash) := by
  simp [receiveLoop, h, hread, hlong]

theorem receiveLoop_data (h : recvbuf.length ≠ expected) (hread : reads k = .data b)
    (hroom : recvbuf.length + b.length ≤ tlsBufferSize) :
    receiveLoop expected reads (fuel + 1) k recvbuf =
      (.sslRead recvbuf.length tlsBufferSize ::
        (receiveLoop expected reads fuel (k + 1) (recvbuf ++ b)).1,
        (receiveLoop expected reads fuel (k + 1) (recvbuf ++ b)).2) := by
  have hfits : ¬recvbuf.length + b.length > tlsBufferSize := Nat.not_lt.2 hroom
  simp only [receiveLoop, if_neg h, hread, if_neg hfits]

/-- A round that is entered asks for a whole buffer behind the bytes there are. -/
theorem sslRead_mem_receiveLoop (h : recvbuf.length ≠ expected) :
    .sslRead recvbuf.length tlsBufferSize ∈ (receiveLoop expected reads (fuel + 1) k recvbuf).1 := by
  cases hread : reads k with
  | failed =>
    rw [receiveLoop_failed h hread]
    exact List.mem_cons_self
  | data c =>
    rcases Nat.lt_or_ge tlsBufferSize (recvbuf.length + c.length) with hlong | hroom
    · rw [receiveLoop_overrun h hread hlong]
      exact List.mem_cons_self
    · rw [receiveLoop_data h hread hroom]
      exact List.mem_cons_self

/-- Without an error the loop is left with what it waited for. -/
theorem length_of_receiveLoop
    (h : (receiveLoop expected reads fuel k recvbuf).2 = .ok (false, b)) :
    b.length = expected := by
  induction fuel generalizing k recvbuf with
  | zero =>
    by_cases hlen : recvbuf.length = expected
    · rw [receiveLoop_complete hlen] at h
      cases h
      exact hlen
    · simp [receiveLoop, hlen] at h
  | succ fuel ih =>
    by_cases hlen : recvbuf.length = expected
    · rw [receiveLoop_complete hlen] at h
      cases h
      exact hlen
    · cases hread : reads k with
      | failed =>
        rw [receiveLoop_failed hlen hread] at h
        cases h
      | data c =>
        rcases Nat.lt_or_ge tlsBufferSize (recvbuf.length + c.length) with hlong | hroom
        · rw [receiveLoop_overrun hlen hread hlong] at h
          cases h
        · rw [receiveLoop_data hlen hread hroom] at h
          exact ih h

end Loop

/-! Where the reads are asked to write. -/

section Bounds

variable {expected fuel k n : ℕ} {reads : ℕ → SslRead} {recvbuf b : List UInt8}

/-- However long the loop runs, it asks for bytes inside `recvbuf` only, and it is left without an
error at the expected size only. -/
def ReceivesInBounds (expected : ℕ) (reads : ℕ → SslRead) : Prop :=
  ∀ fuel, (∀ offset len, .sslRead offset len ∈ (receiveLoop expected reads fuel 0 []).1 →
      offset + len ≤ tlsBufferSize) ∧
    ∀ recvbuf, (receiveLoop expected reads fuel 0 []).2 = .ok (false, recvbuf) →
      recvbuf.length = expected

/-- The first read that delivers bytes delivers the whole body. -/
def ArrivesAtOnce (expected : ℕ) (reads : ℕ → SslRead) : Prop :=
  ∀ k b, (∀ j < k, reads j = .data []) → reads k = .data b → b ≠ [] → b.length = expected

/-- Reads that deliver nothing leave the loop where it was. -/
theorem receiveLoop_idle (hexpected : expected ≠ 0) (hidle : ∀ j < n, reads (k + j) = .data []) :
    (receiveLoop expected reads fuel (k + n) []).1 ⊆
      (receiveLoop expected reads (n + fuel) k []).1 := by
  induction n generalizing k with
  | zero =>
    rw [Nat.add_zero, Nat.zero_add]
    exact List.Subset.refl _
  | succ n ih =>
    have hlen : ([] : List UInt8).length ≠ expected := hexpected.symm
    have hread : reads k = .data [] := hidle 0 (Nat.succ_pos n)
    have hrest : ∀ j < n, reads (k + 1 + j) = .data [] := by
      intro j hj
      rw [Nat.add_assoc, Nat.add_comm 1 j]
      exact hidle (j + 1) (Nat.succ_lt_succ hj)
    have hstep := ih hrest
    rw [Nat.add_assoc, Nat.add_comm 1 n] at hstep
    rw [Nat.succ_add, receiveLoop_data hlen hread (Nat.zero_le _)]
    exact List.subset_cons_of_subset _ hstep

/-- While nothing has come in, every read is asked for at the start of the buffer. -/
theorem receiveLoop_offset (h : ArrivesAtOnce expected reads)
    (hidle : ∀ j < k, reads j = .data []) {offset len : ℕ}
    (hcall : .sslRead offset len ∈ (receiveLoop expected reads fuel k []).1) :
    offset = 0 ∧ len = tlsBufferSize := by
  induction fuel generalizing k with
  | zero => cases hcall
  | succ fuel ih =>
    by_cases hlen : ([] : List UInt8).length = expected
    · rw [receiveLoop_complete hlen] at hcall
      cases hcall
    · cases hread : reads k with
      | failed =>
        rw [receiveLoop_failed hlen hread] at hcall
        cases List.mem_singleton.1 hcall
        exact ⟨rfl, rfl⟩
      | data b =>
        rcases Nat.lt_or_ge tlsBufferSize (([] : List UInt8).length + b.length) with hlong | hroom
        · rw [receiveLoop_overrun hlen hread hlong] at hcall
          cases List.mem_singleton.1 hcall
          exact ⟨rfl, rfl⟩
        · rw [receiveLoop_data hlen hread hroom] at hcall
          rcases List.mem_cons.1 hcall with hcall | hcall
          · cases hcall
            exact ⟨rfl, rfl⟩
          · by_cases hb : b = []
            · subst hb
              refine ih ?_ hcall
              intro j hj
              rcases Nat.lt_succ_iff_lt_or_eq.1 hj with hj | rfl
              · exact hidle j hj
              · exact hread
            · -- the body is complete
              rw [List.nil_append, receiveLoop_complete (h k b hidle hread hb)] at hcall
              cases hcall

/-- The loop stays inside its buffer exactly when there is no body to read or all of it comes with
the first bytes. -/
theorem receivesInBounds_iff (expected : ℕ) (reads : ℕ → SslRead)
    (hreads : ∀ k b, reads k = .data b → b.length ≤ tlsBufferSize) :
    ReceivesInBounds expected reads ↔ expected = 0 ∨ ArrivesAtOnce expected reads := by
  constructor
  · intro h
    by_contra! hno
    obtain ⟨hexpected, hparts⟩ := hno
    simp only [ArrivesAtOnce, not_forall] at hparts
    obtain ⟨k, b, hidle, hread, hne, hlen⟩ := hparts
    have hpos : 0 < b.length := List.length_pos_iff.2 hne
    -- the read after the first bytes starts behind them and asks for a whole buffer again
    have hsecond : .sslRead b.length tlsBufferSize ∈ (receiveLoop expected reads 2 k []).1 := by
      have hnil : ([] : List UInt8).length ≠ expected := hexpected.symm
      have hroom : ([] : List UInt8).length + b.length ≤ tlsBufferSize := by
        rw [List.length_nil, Nat.zero_add]
        exact hreads k b hread
      rw [receiveLoop_data hnil hread hroom, List.nil_append]
      exact List.mem_cons_of_mem _ (sslRead_mem_receiveLoop hlen)
    have hidle' : ∀ j < k, reads (0 + j) = .data [] := by
      intro j hj
      rw [Nat.zero_add]
      exact hidle j hj
    have hsub : (receiveLoop expected reads 2 (0 + k) []).1 ⊆
        (receiveLoop expected reads (k + 2) 0 []).1 := receiveLoop_idle hexpected hidle'
    rw [Nat.zero_add] at hsub
    have hbound := (h (k + 2)).1 _ _ (hsub hsecond)
    omega
  · intro h fuel
    refine ⟨?_, fun recvbuf hend => length_of_receiveLoop hend⟩
    intro offset len hcall
    rcases h with rfl | h
    · rw [receiveLoop_complete List.length_nil] at hcall
      cases hcall
    · obtain ⟨rfl, rfl⟩ := receiveLoop_offset h (fun j hj => absurd hj (Nat.not_lt_zero j)) hcall
      exact le_of_eq (Nat.zero_add _)

/-- A request of three bytes that comes in one read. -/
theorem receivesInBounds_iff_once :
    ReceivesInBounds 3 fun _ => .data [1, 2, 3] := by
  refine (receivesInBounds_iff 3 _ ?_).2 (.inr ?_)
  · intro k b hb
    cases hb
    decide
  · intro k b _ hb _
    cases hb
    rfl

/-- The same request in two reads: the second one may write past the end of the buffer. -/
theorem twoReads_not_receivesInBounds :
    ¬ ReceivesInBounds 3 fun k => if k = 0 then .data [1, 2] else .data [3] := by
  intro h
  have hcall : .sslRead 2 tlsBufferSize ∈ (receiveLoop 3
      (fun k => if k = 0 then .data [1, 2] else .data [3]) 2 0 []).1 := by decide
  have hbound := (h 2).1 2 tlsBufferSize hcall
  revert hbound
  decide

end Bounds

/-! Streams that come to an end. -/

section Streams

variable {expected fuel k : ℕ} {recvbuf : List UInt8} {chunks : List (List UInt8)} {failed : Bool}

/-- Reads that deliver the chunks one after another and then fail, or report the end of the
stream, from then on. -/
def streamReads (chunks : List (List UInt8)) (failed : Bool) (k : ℕ) : SslRead :=
  match chunks[k]? with
  | some b => .data b
  | none => if failed then .failed else .data []

/-- The bytes in a number of chunks. -/
def received (chunks : List (List UInt8)) : ℕ := (chunks.map List.length).sum

/-- After finitely many reads the loop is left, with the expected size or by the error that leads
to the branch for broken packets. -/
def ReceiveEnds (expected : ℕ) (reads : ℕ → SslRead) : Prop :=
  ∃ fuel failed recvbuf, (receiveLoop expected reads fuel 0 []).2 = .ok (failed, recvbuf) ∧
    (failed = true ∨ recvbuf.length = expected)

theorem receiveLoop_succ (expected : ℕ) (reads : ℕ → SslRead) (fuel k : ℕ)
    (recvbuf : List UInt8) :
    receiveLoop expected reads fuel (k + 1) recvbuf =
      receiveLoop expected (fun j => reads (j + 1)) fuel k recvbuf := by
  induction fuel generalizing k recvbuf with
  | zero => rfl
  | succ fuel ih =>
    rw [receiveLoop, receiveLoop]
    simp only [ih]

theorem streamReads_cons (b : List UInt8) (chunks : List (List UInt8)) (failed : Bool) :
    (fun k => streamReads (b :: chunks) failed (k + 1)) = streamReads chunks failed := by
  funext k
  rw [streamReads, streamReads, List.getElem?_cons_succ]

/-- At the end of the stream the loop goes on asking. -/
theorem receiveLoop_closed (h : recvbuf.length ≠ expected) (hroom : recvbuf.length ≤ tlsBufferSize)
    (fuel k : ℕ) : (receiveLoop expected (streamReads [] false) fuel k recvbuf).2 =
      .error .hang := by
  induction fuel generalizing k with
  | zero => simp [receiveLoop, h]
  | succ fuel ih =>
    have hread : streamReads [] false k = .data [] := rfl
    rw [receiveLoop_data h hread hroom, List.append_nil]
    exact ih (k + 1)

/-- The expected size is reached with the first `n` chunks, inside the buffer. -/
def Reaches (expected filled : ℕ) (chunks : List (List UInt8)) : Prop :=
  ∃ n, filled + received (chunks.take n) = expected ∧ expected ≤ tlsBufferSize

theorem reaches_cons {filled : ℕ} {b : List UInt8} (h : filled ≠ expected) :
    Reaches expected filled (b :: chunks) ↔ Reaches expected (filled + b.length) chunks := by
  have htotal : ∀ n, received ((b :: chunks).take (n + 1)) =
      b.length + received (chunks.take n) := fun n => List.sum_cons
  constructor
  · rintro ⟨_ | n, hn, hle⟩
    · exact absurd hn h
    · rw [htotal] at hn
      exact ⟨n, by omega, hle⟩
  · rintro ⟨n, hn, hle⟩
    refine ⟨n + 1, ?_, hle⟩
    rw [htotal]
    omega

/-- A chunk that there is room for is one round of the loop. -/
theorem receiveLoop_chunk {b : List UInt8} (h : recvbuf.length ≠ expected)
    (hroom : recvbuf.length + b.length ≤ tlsBufferSize) :
    (∃ fuel r, (receiveLoop expected (streamReads (b :: chunks) failed) fuel 0 recvbuf).2 =
        .ok r) ↔
      ∃ fuel r, (receiveLoop expected (streamReads chunks failed) fuel 0 (recvbuf ++ b)).2 =
        .ok r := by
  have hread : streamReads (b :: chunks) failed 0 = .data b := rfl
  constructor
  · rintro ⟨_ | fuel, r, hend⟩
    · simp [receiveLoop, h] at hend
    · rw [receiveLoop_data h hread hroom, receiveLoop_succ, streamReads_cons] at hend
      exact ⟨fuel, r, hend⟩
  · rintro ⟨fuel, r, hend⟩
    refine ⟨fuel + 1, r, ?_⟩
    rw [receiveLoop_data h hread hroom, receiveLoop_succ, streamReads_cons]
    exact hend

/-- The loop from any filling of the buffer on. -/
theorem receiveLoop_ends_iff (hbuf : recvbuf.length ≤ tlsBufferSize) :
    (∃ fuel r, (receiveLoop expected (streamReads chunks failed) fuel 0 recvbuf).2 = .ok r) ↔
      Reaches expected recvbuf.length chunks ∨
        (failed = true ∧ recvbuf.length + received chunks ≤ tlsBufferSize) := by
  induction chunks generalizing recvbuf with
  | nil =>
    by_cases hlen : recvbuf.length = expected
    · exact iff_of_true ⟨0, _, by rw [receiveLoop_complete hlen]⟩
        (.inl ⟨0, hlen, by omega⟩)
    · cases failed with
      | true =>
        have hread : streamReads [] true 0 = .failed := rfl
        exact iff_of_true ⟨1, _, by rw [receiveLoop_failed hlen hread]⟩ (.inr ⟨rfl, hbuf⟩)
      | false =>
        refine iff_of_false ?_ ?_
        · rintro ⟨fuel, r, h⟩
          rw [receiveLoop_closed hlen hbuf] at h
          cases h
        · rintro (⟨n, hn, -⟩ | ⟨h, -⟩)
          · rw [List.take_nil] at hn
            exact hlen hn
          · cases h
  | cons b chunks ih =>
    by_cases hlen : recvbuf.length = expected
    · exact iff_of_true ⟨0, _, by rw [receiveLoop_complete hlen]⟩
        (.inl ⟨0, hlen, by omega⟩)
    · have htotal : received (b :: chunks) = b.length + received chunks := List.sum_cons
      rw [reaches_cons hlen, htotal, ← Nat.add_assoc]
      rcases Nat.lt_or_ge tlsBufferSize (recvbuf.length + b.length) with hlong | hroom
      · refine iff_of_false ?_ ?_
        · rintro ⟨_ | fuel, r, h⟩
          · simp [receiveLoop, hlen] at h
          · rw [receiveLoop_overrun hlen rfl hlong] at h
            cases h
        · rintro (⟨n, hn, hle⟩ | ⟨-, hle⟩)
          · omega
          · omega
      · rw [receiveLoop_chunk hlen hroom, ih (by rw [List.length_append]; exact hroom),
          List.length_append]

/-- On a stream that comes to an end the loop is left exactly when the expected size is reached at
the end of a chunk, or the stream ends with a failure, and nothing has run over the buffer until
then. The end of the stream itself does not stop it. -/
theorem receiveEnds_iff (expected : ℕ) (chunks : List (List UInt8)) (failed : Bool) :
    ReceiveEnds expected (streamReads chunks failed) ↔
      (∃ n, received (chunks.take n) = expected ∧ expected ≤ tlsBufferSize) ∨
        (failed = true ∧ received chunks ≤ tlsBufferSize) := by
  have hiff : (∃ fuel r, (receiveLoop expected (streamReads chunks failed) fuel 0 []).2 = .ok r) ↔
      Reaches expected 0 chunks ∨ (failed = true ∧ 0 + received chunks ≤ tlsBufferSize) :=
    receiveLoop_ends_iff (Nat.zero_le _)
  simp only [Reaches, Nat.zero_add] at hiff
  rw [← hiff]
  constructor
  · rintro ⟨fuel, failed, recvbuf, h, -⟩
    exact ⟨fuel, _, h⟩
  · rintro ⟨fuel, ⟨error, recvbuf⟩, h⟩
    refine ⟨fuel, error, recvbuf, h, ?_⟩
    cases error with
    | true => exact .inl rfl
    | false => exact .inr (length_of_receiveLoop h)

/-- Two of three bytes, and then the client closes the connection. -/
theorem closedEarly_not_receiveEnds :
    ¬ ReceiveEnds 3 (streamReads [[1, 2]] false) := by
  rintro ⟨fuel, failed, recvbuf, h, -⟩
  have hroom : ([] : List UInt8).length + [(1 : UInt8), 2].length ≤ tlsBufferSize := by decide
  obtain ⟨fuel, r, h⟩ := (receiveLoop_chunk (by decide) hroom).1 ⟨fuel, _, h⟩
  rw [receiveLoop_closed (by decide) (by decide)] at h
  cases h

end Streams

end BakaDns
