import GraphiteSql.Pager.LogFile

/-! Recovery from a log file that was cut off anywhere, or changed behind its last whole
transaction.
-/

namespace GraphiteSql

open Lib List Nat

variable {frames : List IndexFrame}

/-- The frames of one transaction: the last one is its commit. -/
def IsTxn (frames : List IndexFrame) : Prop :=
  ∃ init last, frames = init ++ [last] ∧ last.commitDbSize ≠ 0 ∧ ∀ f ∈ init, f.commitDbSize = 0

def logEnd (ps : Nat) (txns : List (List IndexFrame)) : Nat :=
  walHdrLen + txns.flatten.length * frameLen ps

variable {txns : List (List IndexFrame)} {n : Nat}

theorem committedFrames_eq_nil (h : ∀ f ∈ frames, f.commitDbSize = 0)
    : committedFrames frames = [] :=
  rdropWhile_eq_nil_iff.mpr fun f hf => by simpa using h f hf

theorem IsTxn.committedFrames_append (h : IsTxn frames) (rest : List IndexFrame)
    : committedFrames (frames ++ rest) = frames ++ committedFrames rest := by
  obtain ⟨init, last, rfl, hmark, -⟩ := h
  induction rest using reverseRecOn with
  | nil =>
    rw [append_nil, committedFrames_marked hmark]
    exact (append_nil _).symm
  | append_singleton more f ih =>
    rw [← append_assoc]
    by_cases hf : f.commitDbSize = 0
    · rw [committedFrames_unmarked hf, committedFrames_unmarked hf, ih]
    · rw [committedFrames_marked hf, committedFrames_marked hf, append_assoc]

theorem IsTxn.committedFrames_take (h : IsTxn frames) (hn : n < frames.length)
    : committedFrames (frames.take n) = [] := by
  obtain ⟨init, last, rfl, -, hinit⟩ := h
  rw [length_append, length_singleton] at hn
  rw [take_append_of_le_length (by omega)]
  exact committedFrames_eq_nil fun f hf => hinit f (mem_of_mem_take hf)

theorem IsTxn.ne_nil (h : IsTxn frames) : frames ≠ [] := by
  obtain ⟨init, last, rfl, -⟩ := h
  simp

theorem committedFrames_flatten (htxns : ∀ txn ∈ txns, IsTxn txn) (rest : List IndexFrame)
    : committedFrames (txns.flatten ++ rest) = txns.flatten ++ committedFrames rest := by
  induction txns with
  | nil => rfl
  | cons txn more ih =>
    rw [flatten_cons, append_assoc, (htxns txn mem_cons_self).committedFrames_append,
      ih fun t ht => htxns t (mem_cons_of_mem _ ht), append_assoc]

/-- The committed frames among the first `n` are the transactions that end there. -/
theorem committedFrames_take_flatten (htxns : ∀ txn ∈ txns, IsTxn txn) (n : Nat)
    : ∃ k ≤ txns.length, committedFrames (txns.flatten.take n) = (txns.take k).flatten
      ∧ ∀ j ≤ txns.length, (txns.take j).flatten.length ≤ n ↔ j ≤ k := by
  induction txns generalizing n with
  | nil => exact ⟨0, Nat.le_refl 0, by simp [committedFrames], fun j hj => by simp at hj; simp [hj]⟩
  | cons txn rest ih =>
    have htxn := htxns txn mem_cons_self
    by_cases hn : n < txn.length
    · refine ⟨0, zero_le _, ?_, fun j _ => ?_⟩
      · rw [flatten_cons, take_append_of_le_length (Nat.le_of_lt hn),
          htxn.committedFrames_take hn]
        rfl
      cases j with
      | zero => simp
      | succ j =>
        simp only [take_succ_cons, flatten_cons, length_append]
        omega
    obtain ⟨k, hk, hcommitted, hfits⟩ :=
      ih (fun t ht => htxns t (mem_cons_of_mem _ ht)) (n - txn.length)
    refine ⟨k + 1, succ_le_succ hk, ?_, fun j hj => ?_⟩
    · rw [flatten_cons, take_append, take_of_length_le (by omega),
        htxn.committedFrames_append, hcommitted]
      rfl
    cases j with
    | zero => simp
    | succ j =>
      have hrest := hfits j (le_of_succ_le_succ hj)
      simp only [take_succ_cons, flatten_cons, length_append]
      omega

def logBytes (ps : Nat) (ckptSeq : UInt32) (salt : Salt) (log : List IndexFrame) : Bytes :=
  (walHeader nativeBigEndian ps ckptSeq salt).1
    ++ chainBytes nativeBigEndian salt (walHeader nativeBigEndian ps ckptSeq salt).2 log

def logCksum (ps : Nat) (ckptSeq : UInt32) (salt : Salt) (log : List IndexFrame)
    : UInt32 × UInt32 :=
  chainChecksum nativeBigEndian (walHeader nativeBigEndian ps ckptSeq salt).2 log

variable {ps : Nat} {ckptSeq : UInt32} {salt : Salt} {log : List IndexFrame} {wal : Bytes}

theorem logBytes_length (hpaged : ∀ f ∈ log, f.data.length = ps)
    : (logBytes ps ckptSeq salt log).length = walHdrLen + log.length * frameLen ps := by
  rw [logBytes, length_append, walHeader_length, chainBytes_length hpaged]

theorem logBytes_append (xs ys : List IndexFrame)
    : logBytes ps ckptSeq salt (xs ++ ys)
      = logBytes ps ckptSeq salt xs
        ++ chainBytes nativeBigEndian salt (logCksum ps ckptSeq salt xs) ys := by
  rw [logBytes, chainBytes_append]
  rfl

section Files

variable (h : logBytes ps ckptSeq salt log <+: wal)

include h

theorem parseLogHeader_logBytes (hps : ps < 2 ^ 32)
    : parseLogHeader wal ps = .ok (some (LogHeader.fresh nativeBigEndian ps ckptSeq salt)) := by
  obtain ⟨rest, rfl⟩ := h
  exact parseLogHeader_walHeader hps _

variable (hpaged : ∀ f ∈ log, f.data.length = ps)

include hpaged

/-- A cut of a log file holds the frames that are whole in it. -/
theorem logBytes_take (hframes : frames <+: log) {c : Nat}
    (hc : walHdrLen + frames.length * frameLen ps ≤ c)
    : logBytes ps ckptSeq salt frames <+: wal.take c := by
  refine prefix_take_iff.mpr ⟨List.IsPrefix.trans ?_ h, ?_⟩
  · obtain ⟨more, rfl⟩ := hframes
    rw [logBytes_append]
    exact prefix_append _ _
  · rw [logBytes_length fun f hf => hpaged f (hframes.subset hf)]
    exact hc

/-- The frames of a log file are its log, and behind it what stands at its end. -/
theorem validFrames_logBytes
    : ∃ more,
      validFrames wal ps (LogHeader.fresh nativeBigEndian ps ckptSeq salt) wal.length walHdrLen
        (LogHeader.fresh nativeBigEndian ps ckptSeq salt).cksum = log ++ more
      ∧ ((∀ f, ¬ FrameAt wal ps nativeBigEndian salt (walHdrLen + log.length * frameLen ps)
          (logCksum ps ckptSeq salt log) f) → more = []) := by
  have hlen : log.length ≤ wal.length := by
    have hle := h.length_le
    rw [logBytes_length hpaged] at hle
    have hframe : log.length ≤ log.length * frameLen ps :=
      Nat.le_mul_of_pos_right _ (by unfold frameLen walFrameHdrLen; omega)
    omega
  obtain ⟨rest, hwal⟩ := h
  have hchain :=
    validFrames_chain (LogHeader.fresh nativeBigEndian ps ckptSeq salt) hpaged hwal.symm
    (wal.length - log.length)
  rw [Nat.add_sub_cancel' hlen] at hchain
  exact ⟨_, hchain, fun hnone => validFrames_nil hnone _⟩

/-- A cut of a log file is read up to the last frame that is whole in it, when no frame with the
same salts follows the log.
-/
theorem validFrames_take
    (hend : slice wal (walHdrLen + log.length * frameLen ps + 8) 8 ≠ some salt.toBytes)
    {c : Nat} (hc : walHdrLen ≤ c)
    : validFrames (wal.take c) ps (LogHeader.fresh nativeBigEndian ps ckptSeq salt)
      (wal.take c).length
        walHdrLen (LogHeader.fresh nativeBigEndian ps ckptSeq salt).cksum
      = log.take ((c - walHdrLen) / frameLen ps) := by
  have hpos : 0 < frameLen ps := by unfold frameLen walFrameHdrLen; omega
  generalize hn : (c - walHdrLen) / frameLen ps = n
  have hfits : n * frameLen ps ≤ c - walHdrLen := by
    rw [← hn]
    exact div_mul_le_self _ _
  have hover : c - walHdrLen < n * frameLen ps + frameLen ps := by
    rw [← hn, Nat.mul_comm]
    exact lt_mul_div_succ _ hpos
  have hcut : logBytes ps ckptSeq salt (log.take n) <+: wal.take c := by
    have hpre : log.take n <+: log := take_prefix n log
    refine logBytes_take h hpaged hpre ?_
    have hle := mul_le_mul_right (frameLen ps) (length_take_le n log)
    omega
  obtain ⟨more, hvalid, hnone⟩ :=
    validFrames_logBytes hcut fun f hf => hpaged f (mem_of_mem_take hf)
  rw [hvalid, hnone ?_, append_nil]
  intro f hf
  have hlen := (slice_eq_some.mp hf.bytes).1
  have hle := length_take_le c wal
  rw [length_take] at hlen hf
  by_cases hall : n < log.length
  · -- The next frame of the log is not whole in the cut.
    rw [min_eq_left (Nat.le_of_lt hall)] at hlen
    omega
  -- The whole log is in the cut, and other salts follow.
  rw [min_eq_right (Nat.le_of_not_lt hall)] at hf
  obtain ⟨-, hsalt, -⟩ := (slice_frameBytes (frameHead_length _ _)).mp hf.bytes
  refine hend ?_
  rw [← take_append_drop c wal]
  exact slice_append_left hsalt

end Files

/-- A process without a live index that attaches to the file loads exactly the frames `log`, at
the size of their last commit.
-/
def Recovers (ps : Nat) (wal : Bytes) (log : List IndexFrame) : Prop :=
  ∃ ix w, attachWal wal .new ps = .ok (ix, w) ∧ ix.log = log ∧ ix.mxFrame = log.length
    ∧ w.map WalRuntime.dbSize = lastSize log ∧ ∀ r ∈ w, r.snapshot = ix.snapshot

section Recovery

/-- Recovery loads the complete commits among the valid frames. -/
theorem recovers_committed {hdr : LogHeader} (hhdr : parseLogHeader wal ps = .ok (some hdr))
    (hframes : validFrames wal ps hdr wal.length walHdrLen hdr.cksum = frames)
    : Recovers ps wal (committedFrames frames) := by
  have hattach := attachWal_eq .new hhdr hframes
  by_cases hnil : committedFrames frames = []
  · rw [if_pos hnil] at hattach
    rw [hnil]
    exact ⟨_, _, hattach, rfl, rfl, rfl, fun _ h => by cases h⟩
  rw [if_neg hnil] at hattach
  obtain ⟨size, hsize⟩ := lastSize_committed hnil
  refine ⟨_, _, hattach, rfl, rfl, ?_, fun r hr => ?_⟩
  · rw [← lastSize_committedFrames, hsize]
    rfl
  · cases hr
    rfl

theorem recovers_short (h : wal.length < walHdrLen) : Recovers ps wal [] := by
  have hattach : attachWal wal .new ps = .ok (.new, none) := by
    unfold attachWal parseLogHeader
    rw [if_pos h]
    rfl
  exact ⟨_, _, hattach, rfl, rfl, rfl, fun _ hr => by cases hr⟩

variable (hps : ps < 2 ^ 32) (htxns : ∀ txn ∈ txns, IsTxn txn)
  (hpaged : ∀ f ∈ txns.flatten, f.data.length = ps)
  (hwal : logBytes ps ckptSeq salt txns.flatten <+: wal)

include hps htxns hpaged hwal

/-- From a log file that is cut off at `c`, the transactions that are whole in the cut are
recovered.
-/
theorem recovers_take
    (hend : slice wal (logEnd ps txns + 8) 8 ≠ some salt.toBytes) (c : Nat)
    : ∃ k ≤ txns.length, Recovers ps (wal.take c) (txns.take k).flatten
      ∧ ∀ j ≤ txns.length, 0 < j → (logEnd ps (txns.take j) ≤ c ↔ j ≤ k) := by
  by_cases hc : walHdrLen ≤ c
  · have hcut : logBytes ps ckptSeq salt [] <+: wal.take c :=
      logBytes_take hwal hpaged nil_prefix (by rw [length_nil]; omega)
    have hhdr := parseLogHeader_logBytes hcut hps
    have hframes := validFrames_take hwal hpaged hend hc
    obtain ⟨k, hk, hcommitted, hfits⟩ :=
      committedFrames_take_flatten htxns ((c - walHdrLen) / frameLen ps)
    refine ⟨k, hk, ?_, fun j hj _ => ?_⟩
    · rw [← hcommitted]
      exact recovers_committed hhdr hframes
    · rw [← hfits j hj, le_div_iff_mul_le (by unfold frameLen walFrameHdrLen; omega), logEnd]
      omega
  · refine ⟨0, zero_le _, recovers_short (by rw [length_take]; omega), fun j _ hpos => ?_⟩
    rw [logEnd]
    omega

theorem recovers_prefix : ∃ more, Recovers ps wal (txns.flatten ++ more) := by
  obtain ⟨more, hframes, -⟩ := validFrames_logBytes hwal hpaged
  have hrecovers := recovers_committed (parseLogHeader_logBytes hwal hps) hframes
  rw [committedFrames_flatten htxns] at hrecovers
  exact ⟨_, hrecovers⟩

end Recovery

end GraphiteSql
