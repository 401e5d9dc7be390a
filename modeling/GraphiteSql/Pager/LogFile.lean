import GraphiteSql.Pager.Open
import GraphiteSql.Pager.WalView
import Mathlib.Data.List.DropRight

/-! What a log file holds: reading it finds the frames that were appended to it, up to the first
one that is torn or carries other salts, and attaches to the last complete commit among them.
-/

namespace GraphiteSql

open Lib List Option

variable {f : IndexFrame} {cksum : UInt32 × UInt32} {frames : List IndexFrame}

-- One frame

def IndexFrame.cksumAfter (bigEnd : Bool) (cksum : UInt32 × UInt32) (f : IndexFrame)
    : UInt32 × UInt32 :=
  frameChecksum bigEnd cksum (frameHead f.pageNo f.commitDbSize) f.data

/-- The frame `f` stands at `off`, behind frames with the running checksum `cksum`. -/
structure FrameAt (wal : Bytes) (ps : Nat) (bigEnd : Bool) (salt : Salt) (off : Nat)
    (cksum : UInt32 × UInt32) (f : IndexFrame) : Prop where
  paged : f.data.length = ps
  bytes : slice wal off (frameLen ps) = some
    (frameBytes (frameHead f.pageNo f.commitDbSize) salt (f.cksumAfter bigEnd cksum) f.data)

variable {wal : Bytes} {ps : Nat} {bigEnd : Bool} {salt : Salt} {off : Nat}

theorem Salt.toBytes_length (salt : Salt) : salt.toBytes.length = 8 := rfl

/-- The fields of a frame, as slices of the file. -/
theorem slice_frameBytes {head data : Bytes} {c : UInt32 × UInt32} (hhead : head.length = 8)
    : slice wal off (frameLen ps) = some (frameBytes head salt c data)
      ↔ slice wal off 8 = some head ∧ slice wal (off + 8) 8 = some salt.toBytes
        ∧ slice wal (off + 16) 4 = some (u32ToBytes c.1)
        ∧ slice wal (off + 20) 4 = some (u32ToBytes c.2)
        ∧ slice wal (off + 24) ps = some data := by
  have hfields : frameBytes head salt c data
      = head ++ (salt.toBytes ++ (u32ToBytes c.1 ++ (u32ToBytes c.2 ++ data))) := by
    simp only [frameBytes, append_assoc]
  have hlen : frameLen ps = head.length + (salt.toBytes.length
      + ((u32ToBytes c.1).length + ((u32ToBytes c.2).length + ps))) := by
    simp only [frameLen, walFrameHdrLen, hhead, Salt.toBytes_length, u32ToBytes_length]
    omega
  rw [hfields, hlen, slice_add, slice_add, slice_add, slice_add]
  simp only [hhead, Salt.toBytes_length, u32ToBytes_length, Nat.add_assoc, Nat.reduceAdd]

theorem slice_frameHead {pageNo dbSize : UInt32}
    : slice wal off 8 = some (frameHead pageNo dbSize)
      ↔ slice wal off 4 = some (u32ToBytes pageNo)
        ∧ slice wal (off + 4) 4 = some (u32ToBytes dbSize) :=
  @slice_add off 4 _ wal (u32ToBytes pageNo) (u32ToBytes dbSize)

theorem FrameAt.unique {g : IndexFrame} (hf : FrameAt wal ps bigEnd salt off cksum f)
    (hg : FrameAt wal ps bigEnd salt off cksum g) : f = g := by
  obtain ⟨hhead, -, -, -, hdata⟩ := (slice_frameBytes (frameHead_length _ _)).mp hf.bytes
  obtain ⟨hhead', -, -, -, hdata'⟩ := (slice_frameBytes (frameHead_length _ _)).mp hg.bytes
  have hheads := Option.some.inj (hhead.symm.trans hhead')
  obtain ⟨hpage, hsize⟩ := append_inj hheads rfl
  cases f
  cases u32ToBytes_injective hpage
  cases u32ToBytes_injective hsize
  cases Option.some.inj (hdata.symm.trans hdata')
  rfl

/-- Reading a frame finds the one that stands there, and nothing when none does. -/
theorem parseFrame_cases (wal : Bytes) (ps : Nat) (bigEnd : Bool) (salt : Salt) (off : Nat)
    (cksum : UInt32 × UInt32)
    : (∃ f, FrameAt wal ps bigEnd salt off cksum f
        ∧ parseFrame wal ps bigEnd salt off cksum = .ok (some (f, f.cksumAfter bigEnd cksum)))
      ∨ (∀ f, ¬ FrameAt wal ps bigEnd salt off cksum f)
        ∧ parseFrame wal ps bigEnd salt off cksum = .ok none := by
  unfold parseFrame
  by_cases hshort : wal.length < off + (walFrameHdrLen + ps)
  · refine .inr ⟨fun f hf => ?_, if_pos hshort⟩
    have hfits : off + (walFrameHdrLen + ps) ≤ wal.length := (slice_eq_some.mp hf.bytes).1
    omega
  rw [if_neg hshort]
  obtain ⟨fhdr, hfhdr⟩ : ∃ b, slice wal off walFrameHdrLen = some b := slice_isSome (by omega)
  obtain ⟨page, hpage⟩ : ∃ b, slice wal (off + walFrameHdrLen) ps = some b :=
    slice_isSome (by omega)
  have hlen : fhdr.length = 24 := slice_length hfhdr
  have hsub : ∀ i n, i + n ≤ 24 → slice fhdr i n = slice wal (off + i) n :=
    fun i n hfit => slice_slice hfhdr hfit
  have hword : ∀ i, i + 4 ≤ 24 → ∃ v, beU32 fhdr i = .ok v
      ∧ slice wal (off + i) 4 = some (u32ToBytes v) := by
    intro i hfit
    obtain ⟨v, hv⟩ : ∃ v, be32 fhdr i = some v := be32_isSome (by omega)
    exact ⟨v, beU32_ok.mpr hv, (hsub i 4 hfit).symm.trans (be32_eq_some.mp hv)⟩
  obtain ⟨pageNo, hpageNo, hpageNo'⟩ := hword 0 (by omega)
  obtain ⟨dbSize, hdbSize, hdbSize'⟩ := hword 4 (by omega)
  obtain ⟨c0, hc0, hc0'⟩ := hword 16 (by omega)
  obtain ⟨c1, hc1, hc1'⟩ := hword 20 (by omega)
  have hhead : slice wal off 8 = some (frameHead pageNo dbSize) :=
    slice_frameHead.mpr ⟨hpageNo', hdbSize'⟩
  have htake : fhdr.take 8 = frameHead pageNo dbSize :=
    (slice_eq_some.mp ((hsub 0 8 (by omega)).trans hhead)).2
  simp only [readExactAt_ok.mpr hfhdr, readExactAt_ok.mpr hpage, except_ok_bind, hpageNo, hdbSize,
    hc0, hc1, htake, hsub 8 8 (by omega)]
  -- A frame at `off` has these fields, so it fails exactly on the checks that fail here.
  have hframe : ∀ g, FrameAt wal ps bigEnd salt off cksum g
      ↔ g = { pageNo, commitDbSize := dbSize, data := page }
        ∧ slice wal (off + 8) 8 = some salt.toBytes ∧ g.cksumAfter bigEnd cksum = (c0, c1) := by
    refine fun g => ⟨fun hg => ?_, ?_⟩
    · obtain ⟨hhead', hsalt, hck0, hck1, hdata⟩ :=
        (slice_frameBytes (frameHead_length _ _)).mp hg.bytes
      obtain ⟨hp, hs⟩ := append_inj (Option.some.inj (hhead'.symm.trans hhead)) rfl
      have hdata' := Option.some.inj (hdata.symm.trans hpage)
      refine ⟨?_, hsalt, Prod.ext (u32ToBytes_injective (Option.some.inj (hck0.symm.trans hc0')))
        (u32ToBytes_injective (Option.some.inj (hck1.symm.trans hc1')))⟩
      rw [← u32ToBytes_injective hp, ← u32ToBytes_injective hs, ← hdata']
    · rintro ⟨rfl, hsalt, hck⟩
      exact ⟨slice_length hpage, (slice_frameBytes (frameHead_length _ _)).mpr
        ⟨hhead, hsalt, by rw [hc0', hck], by rw [hc1', hck], hpage⟩⟩
  by_cases hsalt : slice wal (off + 8) 8 = some salt.toBytes
  · rw [if_neg (not_not_intro hsalt)]
    by_cases hck : frameChecksum bigEnd cksum (frameHead pageNo dbSize) page = (c0, c1)
    · refine .inl ⟨_, (hframe _).mpr ⟨rfl, hsalt, hck⟩, ?_⟩
      simp [hck, IndexFrame.cksumAfter]
    refine .inr ⟨fun g hg => ?_, ?_⟩
    · obtain ⟨rfl, -, hg⟩ := (hframe g).mp hg
      exact hck hg
    · rw [Prod.ext_iff, not_and_or] at hck
      rw [if_pos (by simpa using hck)]
      rfl
  · rw [if_pos hsalt]
    exact .inr ⟨fun g hg => hsalt ((hframe g).mp hg).2.1, rfl⟩

-- Scanning a log

def validFrames (wal : Bytes) (ps : Nat) (hdr : LogHeader)
    : (bound off : Nat) → (cksum : UInt32 × UInt32) → List IndexFrame
  | 0, _, _ => []
  | bound + 1, off, cksum =>
      match parseFrame wal ps hdr.bigEndian hdr.salt off cksum with
      | .ok (some (f, c)) => f :: validFrames wal ps hdr bound (off + frameLen ps) c
      | _ => []

def committedFrames (frames : List IndexFrame) : List IndexFrame :=
  frames.rdropWhile (·.commitDbSize == 0)

def LogScan.of (ps : Nat) (hdr : LogHeader) (frames : List IndexFrame) : LogScan where
  log := frames
  committedLen := (committedFrames frames).length
  committedOff := walHdrLen + (committedFrames frames).length * frameLen ps
  committedCksum := chainChecksum hdr.bigEndian hdr.cksum (committedFrames frames)
  dbSize := (lastSize frames).getD 0

variable {hdr : LogHeader}

theorem lastSize_concat (frames : List IndexFrame) (f : IndexFrame)
    : lastSize (frames ++ [f])
      = if f.commitDbSize = 0 then lastSize frames else some f.commitDbSize := by
  by_cases hmark : f.commitDbSize = 0 <;> simp [lastSize, lastFrame, hmark]

theorem committedFrames_marked (hmark : f.commitDbSize ≠ 0)
    : committedFrames (frames ++ [f]) = frames ++ [f] :=
  rdropWhile_concat_neg _ _ _ (by simpa using hmark)

theorem committedFrames_unmarked (hmark : f.commitDbSize = 0)
    : committedFrames (frames ++ [f]) = committedFrames frames :=
  rdropWhile_concat_pos _ _ _ (by simpa using hmark)

theorem LogScan.of_nil (ps : Nat) (hdr : LogHeader)
    : LogScan.of ps hdr [] = { log := [], committedLen := 0, committedOff := walHdrLen,
                               committedCksum := hdr.cksum, dbSize := 0 } := by
  simp [LogScan.of, committedFrames, chainChecksum, lastSize, lastFrame]

theorem LogScan.of_push (ps : Nat) (hdr : LogHeader) (frames : List IndexFrame) (f : IndexFrame)
    : (LogScan.of ps hdr frames).push f (walHdrLen + (frames.length + 1) * frameLen ps)
        (chainChecksum hdr.bigEndian hdr.cksum (frames ++ [f]))
      = LogScan.of ps hdr (frames ++ [f]) := by
  unfold LogScan.push
  by_cases hmark : f.commitDbSize = 0
  · rw [if_neg (not_not_intro hmark)]
    simp only [LogScan.of, committedFrames_unmarked hmark, lastSize_concat, if_pos hmark]
  · rw [if_pos hmark]
    simp only [LogScan.of, committedFrames_marked hmark, lastSize_concat, if_neg hmark,
      getD_some, length_append, length_singleton]

/-- A scan accounts for the valid frames. -/
theorem scanFrames_ok (wal : Bytes) (ps : Nat) (hdr : LogHeader) (bound : Nat)
    (frames : List IndexFrame)
    : scanFrames wal ps hdr bound (walHdrLen + frames.length * frameLen ps)
        (chainChecksum hdr.bigEndian hdr.cksum frames) (LogScan.of ps hdr frames)
      = .ok (LogScan.of ps hdr (frames ++ validFrames wal ps hdr bound
          (walHdrLen + frames.length * frameLen ps)
          (chainChecksum hdr.bigEndian hdr.cksum frames))) := by
  induction bound generalizing frames with
  | zero => simp [scanFrames, validFrames]
  | succ bound ih =>
    rw [scanFrames, validFrames]
    rcases parseFrame_cases wal ps hdr.bigEndian hdr.salt (walHdrLen + frames.length * frameLen ps)
      (chainChecksum hdr.bigEndian hdr.cksum frames) with ⟨f, -, hparse⟩ | ⟨-, hparse⟩
    · rw [hparse, except_ok_bind]
      dsimp only
      have hoff : walHdrLen + frames.length * frameLen ps + (walFrameHdrLen + ps)
          = walHdrLen + (frames ++ [f]).length * frameLen ps := by
        rw [length_append, length_singleton, Nat.succ_mul, frameLen]
        omega
      have hck : f.cksumAfter hdr.bigEndian (chainChecksum hdr.bigEndian hdr.cksum frames)
          = chainChecksum hdr.bigEndian hdr.cksum (frames ++ [f]) :=
        (chainChecksum_append frames [f]).symm
      have hpush := LogScan.of_push ps hdr frames f
      rw [← length_singleton (a := f), ← length_append] at hpush
      rw [hck, hoff, hpush, ih, ← hoff, append_assoc]
      rfl
    · rw [hparse]
      simp

theorem validFrames_cons {off : Nat}
    (hf : FrameAt wal ps hdr.bigEndian hdr.salt off cksum f) (bound : Nat)
    : validFrames wal ps hdr (bound + 1) off cksum
      = f :: validFrames wal ps hdr bound (off + frameLen ps)
          (f.cksumAfter hdr.bigEndian cksum) := by
  rcases parseFrame_cases wal ps hdr.bigEndian hdr.salt off cksum
    with ⟨g, hg, hparse⟩ | ⟨hnone, -⟩
  · rw [validFrames, hparse, hf.unique hg]
  · exact absurd hf (hnone f)

theorem validFrames_nil {off : Nat}
    (hnone : ∀ f, ¬ FrameAt wal ps hdr.bigEndian hdr.salt off cksum f) (bound : Nat)
    : validFrames wal ps hdr bound off cksum = [] := by
  cases bound with
  | zero => rfl
  | succ bound =>
    rcases parseFrame_cases wal ps hdr.bigEndian hdr.salt off cksum
      with ⟨g, hg, -⟩ | ⟨-, hparse⟩
    · exact absurd hg (hnone g)
    · rw [validFrames, hparse]

/-- Frames that were appended to a log are read back, and after them what follows. -/
theorem validFrames_chain (hdr : LogHeader) {pre tail : Bytes}
    (hpaged : ∀ f ∈ frames, f.data.length = ps)
    (hwal : wal = pre ++ chainBytes hdr.bigEndian hdr.salt cksum frames ++ tail) (bound : Nat)
    : validFrames wal ps hdr (frames.length + bound) pre.length cksum
      = frames ++ validFrames wal ps hdr bound (pre.length + frames.length * frameLen ps)
          (chainChecksum hdr.bigEndian cksum frames) := by
  induction frames generalizing pre cksum with
  | nil => simp [chainChecksum]
  | cons head rest ih =>
    have hhead : head.data.length = ps := hpaged head mem_cons_self
    have hbytes : chainBytes hdr.bigEndian hdr.salt cksum (head :: rest)
        = frameBytes (frameHead head.pageNo head.commitDbSize) hdr.salt
            (head.cksumAfter hdr.bigEndian cksum) head.data
          ++ chainBytes hdr.bigEndian hdr.salt (head.cksumAfter hdr.bigEndian cksum) rest := rfl
    generalize hframe : frameBytes (frameHead head.pageNo head.commitDbSize) hdr.salt
      (head.cksumAfter hdr.bigEndian cksum) head.data = frame at hbytes
    have hlen : frame.length = frameLen ps := by
      rw [← hframe]
      exact frameBytes_length rfl hhead
    have hat : FrameAt wal ps hdr.bigEndian hdr.salt pre.length cksum head := by
      refine ⟨hhead, ?_⟩
      rw [hframe, hwal, hbytes, ← hlen, append_assoc, append_assoc]
      exact slice_append_right.trans (slice_append_left slice_self)
    have hwal' : wal = pre ++ frame
        ++ chainBytes hdr.bigEndian hdr.salt (head.cksumAfter hdr.bigEndian cksum) rest
          ++ tail := by
      rw [hwal, hbytes]
      simp only [append_assoc]
    have hnext : pre.length + frameLen ps = (pre ++ frame).length := by
      rw [length_append, hlen]
    have hoff : pre.length + (rest.length + 1) * frameLen ps
        = (pre ++ frame).length + rest.length * frameLen ps := by
      rw [Nat.succ_mul]
      omega
    rw [length_cons, Nat.add_right_comm, validFrames_cons hat, hnext,
      ih (fun f hf => hpaged f (mem_cons_of_mem _ hf)) hwal', hoff]
    rfl

variable {ckptSeq : UInt32}

def LogHeader.fresh (bigEnd : Bool) (ps : Nat) (ckptSeq : UInt32) (salt : Salt) : LogHeader where
  bigEndian := bigEnd
  ckptSeq
  salt
  cksum := (walHeader bigEnd ps ckptSeq salt).2

theorem walHeader_length : (walHeader bigEnd ps ckptSeq salt).1.length = walHdrLen := rfl

def walHeaderFields (bigEnd : Bool) (ps : Nat) (ckptSeq : UInt32) (salt : Salt) : List Bytes :=
  [u32ToBytes (walMagic ||| (if bigEnd then 1 else 0)), u32ToBytes 3007000, u32ToBytes (.ofNat ps),
    u32ToBytes ckptSeq, u32ToBytes salt.salt1, u32ToBytes salt.salt2,
    u32ToBytes (walHeader bigEnd ps ckptSeq salt).2.1,
      u32ToBytes (walHeader bigEnd ps ckptSeq salt).2.2]

theorem beU32_walHeader (k off : Nat) {v : UInt32}
    (hk : (walHeaderFields bigEnd ps ckptSeq salt)[k]? = some (u32ToBytes v))
    (hoff : ((walHeaderFields bigEnd ps ckptSeq salt).take k).flatten.length = off)
    : beU32 (walHeader bigEnd ps ckptSeq salt).1 off = .ok v := by
  rw [beU32_ok, be32_eq_some]
  exact slice_flatten hk hoff rfl []

/-- A fresh header is read back. -/
theorem parseLogHeader_walHeader (hps : ps < 2 ^ 32) (rest : Bytes)
    : parseLogHeader ((walHeader bigEnd ps ckptSeq salt).1 ++ rest) ps
      = .ok (some (LogHeader.fresh bigEnd ps ckptSeq salt)) := by
  have hread : readExactAt ((walHeader bigEnd ps ckptSeq salt).1 ++ rest) walHdrLen 0
      = .ok (walHeader bigEnd ps ckptSeq salt).1 :=
    readExactAt_ok.mpr (slice_append_left slice_self)
  have hmagic : (walMagic ||| (if bigEnd then 1 else 0)) &&& 0xFFFFFFFE = walMagic
      ∧ ((walMagic ||| (if bigEnd then 1 else 0)) &&& 1 == 1) = bigEnd := by
    cases bigEnd <;> decide
  have hsize : (UInt32.ofNat ps).toNat = ps := by
    exact Nat.mod_eq_of_lt hps
  have hbody : (walHeader bigEnd ps ckptSeq salt).1.take 24
      = u32ToBytes (walMagic ||| (if bigEnd then 1 else 0)) ++ u32ToBytes 3007000
        ++ u32ToBytes (.ofNat ps) ++ u32ToBytes ckptSeq ++ salt.toBytes := rfl
  unfold parseLogHeader
  rw [if_neg (by rw [length_append, walHeader_length]; omega), hread, except_ok_bind]
  rw [beU32_walHeader 0 0 rfl rfl, except_ok_bind, if_neg (not_not_intro hmagic.1)]
  rw [beU32_walHeader 2 8 rfl rfl, except_ok_bind, if_neg (not_not_intro hsize)]
  rw [beU32_walHeader 3 12 rfl rfl, except_ok_bind, beU32_walHeader 4 16 rfl rfl,
    except_ok_bind, beU32_walHeader 5 20 rfl rfl, except_ok_bind,
    beU32_walHeader 6 24 rfl rfl, except_ok_bind, beU32_walHeader 7 28 rfl rfl,
    except_ok_bind, hmagic.2, hbody]
  rw [if_neg (by simp [walHeader])]
  rfl

/-- The index of a connection that finds the complete commits `committed` in the log file. -/
def WalIndex.attach (ix : WalIndex) (ps : Nat) (hdr : LogHeader) (committed : List IndexFrame)
    : WalIndex :=
  if ix.matchesDisk (walHdrLen + committed.length * frameLen ps) hdr.salt ps then ix
  else ix.seed committed hdr.salt (walHdrLen + committed.length * frameLen ps)
    (chainChecksum hdr.bigEndian hdr.cksum committed) ps hdr.ckptSeq hdr.bigEndian

theorem lastSize_committedFrames (frames : List IndexFrame)
    : lastSize (committedFrames frames) = lastSize frames := by
  induction frames using reverseRecOn with
  | nil => rfl
  | append_singleton init last ih =>
    by_cases hmark : last.commitDbSize = 0
    · rw [committedFrames_unmarked hmark, ih, lastSize_concat, if_pos hmark]
    · rw [committedFrames_marked hmark]

theorem lastSize_committed (h : committedFrames frames ≠ [])
    : ∃ size, lastSize (committedFrames frames) = some size := by
  rw [← isSome_iff_exists, isSome_iff_ne_none]
  intro hnone
  have hlast := rdropWhile_last_not (fun f : IndexFrame => f.commitDbSize == 0) frames h
  have hall := lastFrame_eq_none.mp (map_eq_none_iff.mp hnone) _ (getLast_mem h)
  simp only [beq_iff_eq] at hlast
  simp only [bne_iff_ne, ne_eq, not_not] at hall
  exact hlast hall

theorem take_committedFrames (frames : List IndexFrame)
    : frames.take (committedFrames frames).length = committedFrames frames :=
  (prefix_iff_eq_take.mp <| rdropWhile_prefix _ _).symm

/-- Attaching to a log with a valid header finds its complete commits. -/
theorem attachWal_eq (ix : WalIndex) (hhdr : parseLogHeader wal ps = .ok (some hdr))
    (hframes : validFrames wal ps hdr wal.length walHdrLen hdr.cksum = frames)
    : attachWal wal ix ps
      = .ok (if committedFrames frames = [] then (ix, none)
          else (ix.attach ps hdr (committedFrames frames), some {
            snapshot := (ix.attach ps hdr (committedFrames frames)).snapshot
            registeredMark := none
            dbSize := (lastSize frames).getD 0
            salt := hdr.salt })) := by
  have hscan : scanFrames wal ps hdr wal.length walHdrLen hdr.cksum
      { log := [], committedLen := 0, committedOff := walHdrLen, committedCksum := hdr.cksum,
        dbSize := 0 } = .ok (LogScan.of ps hdr frames) := by
    have hall := scanFrames_ok wal ps hdr wal.length []
    simp only [LogScan.of_nil, nil_append, length_nil, Nat.zero_mul, Nat.add_zero] at hall
    rw [← hframes]
    exact hall
  unfold attachWal
  rw [hhdr, except_ok_bind]
  dsimp only
  rw [hscan, except_ok_bind]
  simp only [LogScan.of, length_eq_zero_iff, take_committedFrames]
  split <;> rfl

variable {o : Opening} {head : Bytes} {header : DatabaseHeader}

theorem recoverHotJournal_none (h : o.vfs.disk.journal = [])
    : recoverHotJournal o = .ok () o := by
  unfold recoverHotJournal
  rw [estate_get_bind, h]
  rfl

/-- How a connection starts, from what it found in the log. -/
def openedPager (index : WalIndex) (header : DatabaseHeader) (pages : UInt32) (journal : Bool)
    : Option WalRuntime → Result WritePager
  | none => .ok (.fresh header pages pages journal true none)
  | some w =>
      match index.findFrame 1 w.snapshot.mxFrame with
      | some p1 => do
          let newest ← DatabaseHeader.parse p1
          return { WritePager.fresh newest pages w.dbSize journal true (some w) with
            pageSize := header.pageSize.toNat }
      | none => .ok (.fresh header pages w.dbSize journal true (some w))

/-- Opening a database in WAL mode attaches to the log, and takes the header from there. -/
theorem openWal_attach {journal : Bool} {index : WalIndex} {wal : Option WalRuntime}
    (hjournal : o.vfs.disk.journal = []) (hread : readExactAt o.vfs.disk.db headerLen 0 = .ok head)
    (hparse : DatabaseHeader.parse head = .ok header) (hmode : header.readVersion = 2)
    (hsize : o.vfs.disk.db.length % header.pageSize.toNat = 0)
    (hattach : attachWal o.vfs.disk.wal o.vfs.index header.pageSize.toNat = .ok (index, wal))
    : openWal journal true o
      = (liftM (openedPager index header
          (.ofNat (o.vfs.disk.db.length / header.pageSize.toNat)) journal wal) : OpenM WritePager)
        { o with vfs := { o.vfs with index } } := by
  have hlen : ¬ o.vfs.disk.db.length < headerLen := by
    have hfits := (slice_eq_some.mp (readExactAt_ok.mp hread)).1
    omega
  have hrecover : ∀ rest : Unit → OpenM WritePager,
      (if journal = true then recoverHotJournal >>= rest else rest ()) o = rest () o := by
    intro rest
    cases journal with
    | true => exact estate_bind_ok (recoverHotJournal_none hjournal)
    | false => rfl
  have hwal : ¬ (header.readVersion ≠ 2 ∨ (!true) = true) := by simp [hmode]
  unfold openWal
  refine (hrecover _).trans ?_
  dsimp only
  rw [estate_get_bind, if_neg hlen]
  simp only [hread, lift_ok_bind, hparse, ne_eq, hsize, not_true_eq_false, if_false, if_neg hwal,
    hattach, estate_modify_bind]
  cases wal with
  | none => rfl
  | some w =>
    unfold openedPager
    dsimp only
    cases index.findFrame 1 w.snapshot.mxFrame with
    | none => rfl
    | some p1 =>
      dsimp only
      cases DatabaseHeader.parse p1 <;> rfl

end GraphiteSql
