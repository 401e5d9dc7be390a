import GraphiteSql.Pager.HeaderSync
import GraphiteSql.Pager.LogCuts

/-! The read-only opener parses the log on its own. It shows the same database as the pager that
attaches to the log.
-/

namespace GraphiteSql

open Lib List PagerState WritePager
open Std (TreeMap)

-- The reader

structure WalReader where
  main : Bytes
  header : DatabaseHeader
  pageSize : Nat
  dbSize : UInt32
  frames : TreeMap UInt32 Bytes

/-- What the reader has seen of a log: the pages of complete commits, those since the last one,
and the size of the last one.
-/
structure ReaderScan where
  frames : TreeMap UInt32 Bytes
  pending : List (UInt32 × Bytes)
  commitDbSize : UInt32

def ReaderScan.start : ReaderScan :=
  { frames := ∅, pending := [], commitDbSize := 0 }

/-- One more valid frame; a commit frame publishes all pending ones. -/
def ReaderScan.push (scan : ReaderScan) (pageNo dbSize : UInt32) (page : Bytes) : ReaderScan :=
  let pending := scan.pending ++ [(pageNo, page)]
  if dbSize ≠ 0 then
    { frames := pending.foldl (fun frames p => frames.insert p.1 p.2) scan.frames
      pending := []
      commitDbSize := dbSize }
  else { scan with pending }

/-- Walk the frames from `off` on, keeping a running checksum. Every frame takes at least its
header, so the file size bounds them.
-/
def walkFrames (wal : Bytes) (pageSize : Nat) (bigEndian : Bool) (salt : Bytes)
    : (bound off : Nat) → (s : UInt32 × UInt32) → ReaderScan → Result ReaderScan
  | 0, _, _, scan => .ok scan
  | bound + 1, off, s, scan => do
      if wal.length < off + (walFrameHdrLen + pageSize) then return scan else
      let fhdr ← readExactAt wal walFrameHdrLen off
      let page ← readExactAt wal pageSize (off + walFrameHdrLen)
      if slice fhdr 8 8 ≠ some salt then return scan else
      let c := checksum bigEndian s.1 s.2 (fhdr.take 8)
      let c := checksum bigEndian c.1 c.2 page
      if c.1 ≠ (← beU32 fhdr 16) || c.2 ≠ (← beU32 fhdr 20) then return scan else
      let pageNo ← beU32 fhdr 0
      let dbSize ← beU32 fhdr 4
      walkFrames wal pageSize bigEndian salt bound (off + (walFrameHdrLen + pageSize)) c
        (scan.push pageNo dbSize page)

/-- Read a whole log file; a file without a whole header is no log. Also returns the page size of
the log, 0 without one.
-/
def readLog (wal : Bytes) : Result (ReaderScan × Nat) := do
  if wal.length < walHdrLen then return (.start, 0) else
  let hdr ← readExactAt wal walHdrLen 0
  let magic ← beU32 hdr 0
  if magic &&& 0xFFFFFFFE ≠ walMagic then throw (.corrupt "bad WAL magic") else
  let bigEndian := magic &&& 1 == 1
  let pageSize := (← beU32 hdr 8).toNat
  if pageSize < 512 || !isPowerOfTwo pageSize then throw (.corrupt "bad WAL page size") else
  let salt ← orPanic "index out of bounds" (slice hdr 16 8)
  let h := checksum bigEndian 0 0 (hdr.take 24)
  if h.1 ≠ (← beU32 hdr 24) || h.2 ≠ (← beU32 hdr 28) then
    throw (.corrupt "WAL header checksum mismatch") else
  let scan ← walkFrames wal pageSize bigEndian salt wal.length walHdrLen h .start
  return (scan, pageSize)

namespace WalReader

def openReader (main wal : Bytes) : Result WalReader := do
  let (scan, walPageSize) ← readLog wal
  -- The newest page 1 may itself be in the log.
  let page1 ← match scan.frames[(1 : UInt32)]? with
    | some p => pure p
    | none => readExactAt main (min main.length (max headerLen 512)) 0
  let header ← DatabaseHeader.parse page1
  let pageSize := if walPageSize ≠ 0 then walPageSize else header.pageSize.toNat
  let dbSize := if scan.commitDbSize ≠ 0 then scan.commitDbSize else .ofNat (main.length / pageSize)
  return { main, header, pageSize, dbSize, frames := scan.frames }

def page (r : WalReader) (number : UInt32) : Result Bytes :=
  if number = 0 ∨ r.dbSize < number then
    .error (.corrupt s!"page {number} out of range 1..={r.dbSize}")
  else
    match r.frames[number]? with
    | some data => .ok data
    | none => readExactAt r.main r.pageSize ((number.toNat - 1) * r.pageSize)

end WalReader

section Walk

variable {wal : Bytes} {ps : Nat} {hdr : LogHeader}

/-- Both parsers read a frame by the same checks. -/
theorem walkFrames_succ (bigEnd : Bool) (salt : Salt) (bound off : Nat) (s : UInt32 × UInt32)
    (scan : ReaderScan)
    : walkFrames wal ps bigEnd salt.toBytes (bound + 1) off s scan
      = parseFrame wal ps bigEnd salt off s >>= fun
        | none => .ok scan
        | some (f, c) => walkFrames wal ps bigEnd salt.toBytes bound (off + frameLen ps) c
            (scan.push f.pageNo f.commitDbSize f.data) := by
  rw [walkFrames, parseFrame]
  split
  · rfl
  cases readExactAt wal walFrameHdrLen off with
  | error e => rfl
  | ok fhdr =>
    cases readExactAt wal ps (off + walFrameHdrLen) with
    | error e => rfl
    | ok page =>
      simp only [except_ok_bind]
      split
      · rfl
      cases beU32 fhdr 16 <;> cases beU32 fhdr 20 <;> try rfl
      have hfold : checksum bigEnd (checksum bigEnd s.1 s.2 (fhdr.take 8)).1
          (checksum bigEnd s.1 s.2 (fhdr.take 8)).2 page
          = frameChecksum bigEnd s (fhdr.take 8) page := rfl
      rw [hfold]
      simp only [except_ok_bind]
      split
      · rfl
      · cases beU32 fhdr 0 <;> cases beU32 fhdr 4 <;> rfl

theorem walkFrames_ok (hdr : LogHeader) (bound off : Nat) (s : UInt32 × UInt32) (scan : ReaderScan)
    : walkFrames wal ps hdr.bigEndian hdr.salt.toBytes bound off s scan
      = .ok ((validFrames wal ps hdr bound off s).foldl
          (fun scan f => scan.push f.pageNo f.commitDbSize f.data) scan) := by
  induction bound generalizing off s scan with
  | zero => rfl
  | succ bound ih =>
    rw [walkFrames_succ, validFrames]
    rcases parseFrame_cases wal ps hdr.bigEndian hdr.salt off s with ⟨f, -, hparse⟩ | ⟨-, hparse⟩
    · rw [hparse]
      exact ih _ _ _
    · rw [hparse]
      rfl

theorem getElem?_publish (frames : List IndexFrame) (m : TreeMap UInt32 Bytes) (n : UInt32)
    : ((frames.map fun f => (f.pageNo, f.data)).foldl (fun m p => m.insert p.1 p.2) m)[n]?
      = (newest frames n).or m[n]? := by
  induction frames using reverseRecOn with
  | nil => rfl
  | append_singleton init last ih =>
    rw [map_append, foldl_append]
    simp only [map_cons, map_nil, foldl_cons, foldl_nil]
    rw [TreeMap.getElem?_insert, ih]
    by_cases hn : last.pageNo = n
    · simp [hn, newest, lastFrame]
    · simp [hn, newest, lastFrame]

/-- The scan has the committed frames of `log`, and the others pending. -/
structure ReaderScan.Holds (scan : ReaderScan) (log : List IndexFrame) : Prop where
  frames : ∀ n : UInt32, scan.frames[n]? = newest (committedFrames log) n
  pending : scan.pending = (log.drop (committedFrames log).length).map fun f => (f.pageNo, f.data)
  commitDbSize : scan.commitDbSize = (lastSize log).getD 0

theorem ReaderScan.Holds.push {scan : ReaderScan} {log : List IndexFrame} (h : scan.Holds log)
    (f : IndexFrame) : (scan.push f.pageNo f.commitDbSize f.data).Holds (log ++ [f]) := by
  have hpre : committedFrames log <+: log := rdropWhile_prefix _ _
  have hle := hpre.length_le
  obtain ⟨rest, hrest⟩ := hpre
  have hdrop : log.drop (committedFrames log).length = rest := by
    have hleft : (committedFrames log ++ rest).drop (committedFrames log).length = rest :=
      drop_left
    rwa [hrest] at hleft
  have hpending : scan.pending ++ [(f.pageNo, f.data)]
      = (rest ++ [f]).map fun f => (f.pageNo, f.data) := by
    rw [h.pending, hdrop, map_append]
    rfl
  unfold ReaderScan.push
  rw [hpending]
  by_cases hmark : f.commitDbSize = 0
  · rw [if_neg (not_not_intro hmark)]
    refine ⟨fun n => ?_, ?_, ?_⟩
    · rw [committedFrames_unmarked hmark]
      exact h.frames n
    · rw [committedFrames_unmarked hmark, drop_append_of_le_length hle, hdrop]
    · rw [lastSize_concat, if_pos hmark]
      exact h.commitDbSize
  rw [if_pos hmark]
  refine ⟨fun n => ?_, ?_, ?_⟩
  · rw [getElem?_publish, h.frames, ← newest_append, ← append_assoc, hrest,
      committedFrames_marked hmark]
  · rw [committedFrames_marked hmark, drop_length]
    rfl
  · rw [lastSize_concat, if_neg hmark]
    rfl

theorem ReaderScan.holds (log : List IndexFrame)
    : (log.foldl (fun scan f => scan.push f.pageNo f.commitDbSize f.data) ReaderScan.start).Holds
      log := by
  induction log using reverseRecOn with
  | nil => exact ⟨fun n => by simp [ReaderScan.start, committedFrames, newest, lastFrame], rfl, rfl⟩
  | append_singleton init last ih =>
    rw [foldl_append]
    exact ih.push last

end Walk

-- Opening

/-- Both openers fail alike, or show one database: the same size, and the same bytes or error for
every page in range.
-/
def SameDatabase : Result WalReader → EStateM.Result Error Opening WritePager → Prop
  | .ok r, .ok wp o => wp.pageCount = r.dbSize
      ∧ ∀ n, n ≠ 0 → n ≤ r.dbSize → ({ vfs := o.vfs, wp } : PagerState).readPage n = r.page n
  | .error e, .error e' _ => e = e'
  | _, _ => False

/-- The page count and the first page that the reader shows. -/
def shownPage1 (r : Result WalReader) : Option (UInt32 × Result Bytes) :=
  r.toOption.map fun r => (r.dbSize, r.page 1)

/-- The page count and the first page that the pager shows. -/
def openedPage1 : EStateM.Result Error Opening WritePager → Option (UInt32 × Result Bytes)
  | .ok wp o => some (wp.pageCount, ({ vfs := o.vfs, wp } : PagerState).readPage 1)
  | .error _ _ => none

theorem SameDatabase.size {r : Result WalReader} {p : EStateM.Result Error Opening WritePager}
    (h : SameDatabase r p) : (shownPage1 r).map Prod.fst = (openedPage1 p).map Prod.fst := by
  cases r with
  | error e =>
    cases p with
    | error e' o => rfl
    | ok wp o => exact h.elim
  | ok r =>
    cases p with
    | error e' o => exact h.elim
    | ok wp o => exact congrArg some h.1.symm

section Open

variable {wal main : Bytes} {ps : Nat} {hdr : LogHeader}

/-- A log that the pager accepts is read by the reader. -/
theorem readLog_ok (hmin : 512 ≤ ps) (hpow : isPowerOfTwo ps = true)
    (hhdr : parseLogHeader wal ps = .ok (some hdr))
    : ∃ scan, readLog wal = .ok (scan, ps)
      ∧ scan.Holds (validFrames wal ps hdr wal.length walHdrLen hdr.cksum) := by
  unfold parseLogHeader at hhdr
  split_ifs at hhdr with hshort
  · cases hhdr
  obtain ⟨bytes, hbytes, hhdr⟩ := except_bind_eq_ok.mp hhdr
  obtain ⟨magic, hmagic, hhdr⟩ := except_bind_eq_ok.mp hhdr
  split_ifs at hhdr with hbase
  · cases hhdr
  obtain ⟨walPs, hwalPs, hhdr⟩ := except_bind_eq_ok.mp hhdr
  split_ifs at hhdr with hsize
  · cases hhdr
  obtain ⟨seq, hseq, hhdr⟩ := except_bind_eq_ok.mp hhdr
  obtain ⟨salt1, hsalt1, hhdr⟩ := except_bind_eq_ok.mp hhdr
  obtain ⟨salt2, hsalt2, hhdr⟩ := except_bind_eq_ok.mp hhdr
  obtain ⟨c0, hc0, hhdr⟩ := except_bind_eq_ok.mp hhdr
  obtain ⟨c1, hc1, hhdr⟩ := except_bind_eq_ok.mp hhdr
  split_ifs at hhdr with hck
  · cases hhdr
  have hfields := Option.some.inj (Except.ok.inj hhdr)
  have hbig : (magic &&& 1 == 1) = hdr.bigEndian := congrArg LogHeader.bigEndian hfields
  have hcksum : checksum (magic &&& 1 == 1) 0 0 (bytes.take 24) = hdr.cksum :=
    congrArg LogHeader.cksum hfields
  have hsalt : slice bytes 16 8 = some hdr.salt.toBytes := by
    rw [← congrArg LogHeader.salt hfields]
    exact (@slice_add 16 4 _ bytes (u32ToBytes salt1) (u32ToBytes salt2)).mpr
      ⟨be32_eq_some.mp (beU32_ok.mp hsalt1), be32_eq_some.mp (beU32_ok.mp hsalt2)⟩
  have hps : walPs.toNat = ps := not_not.mp hsize
  have hgeometry : ¬ (walPs.toNat < 512 || !isPowerOfTwo walPs.toNat) = true := by
    rw [hps, hpow]
    simpa using hmin
  refine ⟨_, ?_, ReaderScan.holds _⟩
  unfold readLog
  rw [if_neg hshort, hbytes, except_ok_bind, hmagic, except_ok_bind, if_neg hbase, hwalPs,
    except_ok_bind, if_neg hgeometry, hsalt]
  simp only [orPanic, except_ok_bind, hc0, hc1, if_neg hck, hps]
  rw [hcksum, hbig, walkFrames_ok]
  rfl

/-- The reader opens on what the log and the main file hold. -/
theorem openReader_eq (main : Bytes) (hmin : 512 ≤ ps) (hpow : isPowerOfTwo ps = true)
    (hhdr : parseLogHeader wal ps = .ok (some hdr)) {frames : List IndexFrame}
    (hframes : validFrames wal ps hdr wal.length walHdrLen hdr.cksum = frames)
    : ∃ m : TreeMap UInt32 Bytes, (∀ n : UInt32, m[n]? = newest (committedFrames frames) n)
      ∧ WalReader.openReader main wal
        = (match newest (committedFrames frames) 1 with
            | some p => .ok p
            | none => readExactAt main (min main.length (max headerLen 512)) 0)
          >>= DatabaseHeader.parse >>= fun header => .ok {
            main, header, pageSize := ps, frames := m
            dbSize := (lastSize frames).getD (.ofNat (main.length / ps)) } := by
  obtain ⟨scan, hread, hscan⟩ := readLog_ok hmin hpow hhdr
  rw [hframes] at hscan
  refine ⟨scan.frames, hscan.frames, ?_⟩
  unfold WalReader.openReader
  rw [hread, except_ok_bind]
  dsimp only
  rw [hscan.frames, hscan.commitDbSize]
  have hps : ps ≠ 0 := by omega
  have hsize : ∀ d : UInt32, (if (lastSize frames).getD 0 ≠ 0 then (lastSize frames).getD 0 else d)
      = (lastSize frames).getD d := by
    intro d
    cases hlast : lastSize frames with
    | none => rfl
    | some size => exact if_pos (lastSize_ne_zero hlast)
  simp only [if_pos hps, hsize]
  cases newest (committedFrames frames) 1 with
  | none => cases readExactAt main (min main.length (max headerLen 512)) 0 <;> rfl
  | some p => rfl

/-- Both openers find the same header in the main file. -/
theorem parse_main {header : DatabaseHeader} (hdisk : diskHeader main = .ok header)
    : (readExactAt main (min main.length (max headerLen 512)) 0 >>= DatabaseHeader.parse)
      = .ok header := by
  obtain ⟨head, hread, hparse⟩ := except_bind_eq_ok.mp hdisk
  obtain ⟨hfits, htake⟩ := slice_eq_some.mp (readExactAt_ok.mp hread)
  obtain ⟨buf, hbuf⟩ : ∃ buf, slice main 0 (min main.length (max headerLen 512)) = some buf :=
    slice_isSome (by omega)
  have hlen : headerLen ≤ buf.length := by
    rw [slice_length hbuf]
    omega
  have hhead : buf.take headerLen = head := by
    have hsame := slice_slice hbuf (show 0 + headerLen ≤ _ by rw [← slice_length hbuf]; omega)
    rw [readExactAt_ok.mp hread] at hsame
    exact (slice_eq_some.mp hsame).2
  rw [readExactAt_ok.mpr hbuf, except_ok_bind, ← take_append_drop headerLen buf,
    DatabaseHeader.parse_append (by rw [length_take]; omega), hhead, hparse]

theorem readPage_eq_page {s : PagerState} {r : WalReader} {w : WalRuntime}
    (hstaged : s.wp.overlay = ∅) (hwal : s.wp.wal = some w) (hmain : r.main = s.vfs.disk.db)
    (hps : r.pageSize = s.wp.pageSize) (hsize : r.dbSize = w.dbSize)
    (hframes : ∀ n : UInt32, r.frames[n]? = s.vfs.index.findFrame n w.snapshot.mxFrame)
    {n : UInt32} (hzero : n ≠ 0) (hle : n ≤ r.dbSize) : s.readPage n = r.page n := by
  have hrange : ¬ (n = 0 ∨ r.dbSize < n) := by
    simp only [not_or, UInt32.not_lt]
    exact ⟨hzero, hle⟩
  unfold PagerState.readPage WalReader.page
  rw [hstaged, hwal, if_neg hrange, hframes]
  dsimp only
  rewrite [← hsize, if_neg hrange, readDisk, hmain, hps]
  rfl

/-- On a database in WAL mode whose log has a valid header, the read-only opener and the pager show
the same database.
-/
theorem wal_parsers_agree {o : Opening} {journal : Bool} {header : DatabaseHeader}
    (hjournal : o.vfs.disk.journal = []) (hindex : o.vfs.index = .new)
    (hdisk : diskHeader o.vfs.disk.db = .ok header) (hmode : header.readVersion = 2)
    (hsize : o.vfs.disk.db.length % header.pageSize.toNat = 0)
    (hhdr : parseLogHeader o.vfs.disk.wal header.pageSize.toNat = .ok (some hdr))
    : SameDatabase (WalReader.openReader o.vfs.disk.db o.vfs.disk.wal)
      (openWal journal true o) := by
  obtain ⟨head, hread, hparse⟩ := except_bind_eq_ok.mp hdisk
  have hvalid := (DatabaseHeader.parse_ok hparse).1
  obtain ⟨m, hm, hopen⟩ := openReader_eq o.vfs.disk.db hvalid.minimum hvalid.powerOfTwo hhdr rfl
  obtain ⟨ix, w, hattach, hlog, hmx, hlast, hsnapshot⟩ := recovers_committed hhdr rfl
  rw [← hindex] at hattach
  rw [openWal_attach hjournal hread hparse hmode hsize hattach, hopen]
  generalize hframes : validFrames o.vfs.disk.wal header.pageSize.toNat hdr o.vfs.disk.wal.length
    walHdrLen hdr.cksum = frames at hm hlog hmx hlast
  cases w with
  | none =>
    -- Without a complete commit both read the main file alone.
    have hnil : committedFrames frames = [] := by
      by_contra hne
      obtain ⟨size, hsome⟩ := lastSize_committed hne
      rw [hsome] at hlast
      cases hlast
    have hnosize : lastSize frames = none := by
      rw [← lastSize_committedFrames, ← hlast]
      rfl
    have hnone : newest [] 1 = none := rfl
    rw [hnil, hnone, parse_main hdisk, hnosize]
    refine ⟨rfl, fun n hzero hle => ?_⟩
    have hrange : ¬ (n = 0 ∨ UInt32.ofNat (o.vfs.disk.db.length / header.pageSize.toNat) < n) := by
      simp only [not_or, UInt32.not_lt]
      exact ⟨hzero, hle⟩
    have hframe : m[n]? = none := by
      rw [hm, hnil]
      rfl
    simp only [fresh, WalReader.page, Option.getD_none, if_neg hrange, hframe]
    exact if_neg hrange
  | some w =>
    have hsome : lastSize frames = some w.dbSize := by
      rw [← lastSize_committedFrames, ← hlast]
      rfl
    have hfind : ∀ n, ix.findFrame n w.snapshot.mxFrame = newest (committedFrames frames) n := by
      intro n
      rw [findFrame_eq, hsnapshot w rfl, WalIndex.snapshot, hmx, hlog, take_length]
    have hsame : ∀ newest : DatabaseHeader, SameDatabase
        (.ok { main := o.vfs.disk.db, header := newest, pageSize := header.pageSize.toNat,
               dbSize := w.dbSize, frames := m })
        (.ok { fresh newest (.ofNat (o.vfs.disk.db.length / header.pageSize.toNat)) w.dbSize
                 journal true (some w) with pageSize := header.pageSize.toNat }
          { o with vfs := { o.vfs with index := ix } }) := by
      intro newest
      refine ⟨rfl, fun n hzero hle => ?_⟩
      exact readPage_eq_page rfl rfl rfl rfl rfl (fun n => (hm n).trans (hfind n).symm) hzero hle
    rw [hsome]
    unfold openedPager
    dsimp only
    rw [hfind]
    cases newest (committedFrames frames) 1 with
    | none =>
      rw [parse_main hdisk]
      exact hsame header
    | some p1 =>
      dsimp only
      rw [except_ok_bind]
      cases DatabaseHeader.parse p1 with
      | error e => exact rfl
      | ok newest => exact hsame newest

end Open

def oldHeader : DatabaseHeader :=
  newHeader 512 .none

def emptyPage1 (header : DatabaseHeader) : Bytes :=
  header.toBytes ++ zeroPage 412

def openingOf (main wal : Bytes) : Opening where
  vfs :=
    { disk := { db := main, journal := [], wal }
      trace := []
      locks := .default
      index := .new }
  level := .unlocked

/-- Two commits that rewrite page 1, and a frame that was never committed. -/
def sampleLog : Bytes :=
  logBytes 512 0 { salt1 := 1, salt2 := 1 }
    [{ pageNo := 1, commitDbSize := 1, data := emptyPage1 { oldHeader with userVersion := 1 } },
      { pageNo := 2, commitDbSize := 0, data := zeroPage 512 },
      { pageNo := 1, commitDbSize := 2, data := emptyPage1 { oldHeader with userVersion := 2 } },
      { pageNo := 1, commitDbSize := 0, data := emptyPage1 { oldHeader with userVersion := 3 } }]

theorem parseLogHeader_sampleLog {ps : Nat} (hps : ps = 512)
    : parseLogHeader sampleLog ps
      = .ok (some (LogHeader.fresh nativeBigEndian 512 0 { salt1 := 1, salt2 := 1 })) := by
  rw [hps]
  exact parseLogHeader_logBytes (prefix_refl _) (by decide)

def walHeader1 : DatabaseHeader :=
  { oldHeader with readVersion := 2, writeVersion := 2 }

/-- Both show the second commit. -/
theorem wal_parsers_agree_sample
    : SameDatabase (WalReader.openReader (emptyPage1 walHeader1) sampleLog)
        (openWal true true (openingOf (emptyPage1 walHeader1) sampleLog))
      ∧ (WalReader.openReader (emptyPage1 walHeader1) sampleLog).toOption.map
          (fun r => (r.dbSize, r.header.userVersion)) = some (2, 2) := by
  have hdisk : diskHeader (emptyPage1 walHeader1) = .ok walHeader1 := by decide +kernel
  have hlen : (emptyPage1 walHeader1).length % walHeader1.pageSize.toNat = 0 := by decide +kernel
  refine ⟨?_, by decide +kernel⟩
  have hhdr : parseLogHeader sampleLog walHeader1.pageSize.toNat = _ :=
    parseLogHeader_sampleLog (by decide)
  generalize emptyPage1 walHeader1 = main at hdisk hlen ⊢
  generalize sampleLog = wal at hhdr ⊢
  exact wal_parsers_agree (o := openingOf main wal) rfl rfl hdisk rfl hlen hhdr

/-- A main file in WAL mode with one byte after its page. -/
def unevenMain : Bytes :=
  emptyPage1 walHeader1 ++ [0]

/-- The reader overlays the log on every main file. The pager ignores it when the main file is not
in WAL mode, and refuses a main file that is not a multiple of the page size.
-/
theorem wal_parsers_differ
    : (∀ ps, ps = 512 → parseLogHeader sampleLog ps
        = .ok (some (LogHeader.fresh nativeBigEndian 512 0 { salt1 := 1, salt2 := 1 })))
      ∧ (diskHeader (emptyPage1 oldHeader) = .ok oldHeader
        ∧ shownPage1 (WalReader.openReader (emptyPage1 oldHeader) sampleLog)
          = some (2, .ok (emptyPage1 { oldHeader with userVersion := 2 }))
        ∧ openedPage1 (openWal true true (openingOf (emptyPage1 oldHeader) sampleLog))
          = some (1, .ok (emptyPage1 oldHeader))
        ∧ ¬ SameDatabase (WalReader.openReader (emptyPage1 oldHeader) sampleLog)
          (openWal true true (openingOf (emptyPage1 oldHeader) sampleLog)))
      ∧ diskHeader unevenMain = .ok walHeader1
        ∧ ¬ SameDatabase (WalReader.openReader unevenMain sampleLog)
          (openWal true true (openingOf unevenMain sampleLog)) := by
  refine ⟨fun _ => parseLogHeader_sampleLog, ⟨?_, ?_, ?_, mt SameDatabase.size ?_⟩, ?_,
    mt SameDatabase.size ?_⟩
  all_goals decide +kernel

end GraphiteSql
