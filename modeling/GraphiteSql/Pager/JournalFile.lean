import GraphiteSql.Pager.Playback

/-! The journal file that a commit leaves behind, and what opening the database makes of it. -/

namespace GraphiteSql

open Lib List Nat

/-- What a journal saves: the record count it advertises, the nonce, the committed size and the
original pages.
-/
structure JournalImage where
  nonce : UInt32
  diskPages : UInt32
  pageSize : UInt32
  originals : List (UInt32 × Bytes)

namespace JournalImage

variable (img : JournalImage)

def header (nrec : UInt32) : Bytes :=
  (journalHeaderFields nrec img.nonce img.diskPages img.pageSize).flatten

def recordPieces (nonce : UInt32) (page : UInt32 × Bytes) : List Bytes :=
  [u32ToBytes page.1, page.2, u32ToBytes (journalPageChecksum nonce page.2)]

def records : Bytes :=
  (img.originals.flatMap (recordPieces img.nonce)).flatten

def recLen : Nat :=
  4 + img.pageSize.toNat + 4

/-- An image a commit can produce: a legal page size, whole pages with non-zero numbers, and a
record count that fits its field.
-/
structure Valid (img : JournalImage) : Prop where
  minimum : 512 ≤ img.pageSize.toNat
  powerOfTwo : isPowerOfTwo img.pageSize.toNat = true
  paged : ∀ page ∈ img.originals, page.2.length = img.pageSize.toNat
  positive : ∀ page ∈ img.originals, page.1 ≠ 0
  count : img.originals.length < 2 ^ 32

theorem header_length (nrec : UInt32)
    : (img.header nrec).length = journalSector := by
  simp only [header, journalHeaderFields, flatten_cons, flatten_nil, length_append,
    u32ToBytes_length, length_replicate, length_nil]
  rfl

theorem records_length {img : JournalImage} (h : img.Valid)
    : img.records.length = img.originals.length * img.recLen := by
  have key : ∀ pages : List (UInt32 × Bytes), (∀ page ∈ pages, page.2.length = img.pageSize.toNat) →
      (pages.flatMap (recordPieces img.nonce)).flatten.length = pages.length * img.recLen := by
    intro pages hpages
    induction pages with
    | nil => simp
    | cons head tail ih =>
      have hhead := hpages head mem_cons_self
      have htail := ih fun page hp => hpages page (mem_cons_of_mem _ hp)
      simp only [flatMap_cons, flatten_append, length_append, htail,
        length_cons, recordPieces, flatten_cons, flatten_nil, u32ToBytes_length,
        hhead, succ_mul, recLen, length_nil]
      omega
  exact key img.originals h.paged

theorem header_slice (nrec : UInt32) (rest : Bytes)
    : slice (img.header nrec ++ rest) 0 journalHdrFields
      = some ((img.header nrec ++ rest).take journalHdrFields) := by
  refine slice_eq_some.mpr ⟨?_, by simp⟩
  rw [length_append, header_length]
  simp only [journalHdrFields, journalSector]
  omega

theorem header_field (nrec : UInt32) (rest : Bytes) (k off : Nat) {v : UInt32}
    (hk : (journalHeaderFields nrec img.nonce img.diskPages img.pageSize)[k]? = some (u32ToBytes v))
    (hoff : ((journalHeaderFields nrec img.nonce img.diskPages img.pageSize).take k).flatten.length
      = off)
    (hfit : off + 4 ≤ journalHdrFields)
    : be32 ((img.header nrec ++ rest).take journalHdrFields) off = some v := by
  rw [be32_eq_some, slice_slice (header_slice img nrec rest) hfit, Nat.zero_add]
  exact slice_flatten hk hoff rfl rest

variable (nrec : UInt32) (rest : Bytes)

theorem segmentAt_header : segmentAt (img.header nrec ++ rest) 0 = some (nrec, img.nonce) := by
  have hmagic : ((img.header nrec ++ rest).take journalHdrFields).take 8 = journalMagic := rfl
  have hcount := header_field img nrec rest 1 8 rfl rfl (by decide)
  have hnonce := header_field img nrec rest 2 12 rfl rfl (by decide)
  simp only [segmentAt, header_slice, hmagic, hcount, hnonce, Option.bind_eq_bind,
    Option.bind_some, ne_eq, not_true_eq_false, ite_false, Option.pure_def]

theorem geometry_header
    : geometry (img.header nrec ++ rest)
      = if img.pageSize < 512 ∨ !isPowerOfTwo img.pageSize.toNat ∨ nrec = 0 then none
        else some (img.diskPages, .ofNat journalSector, img.pageSize) := by
  have hsize : ¬ (img.header nrec ++ rest).length < journalSector := by
    rw [length_append, header_length]
    omega
  have hmagic : ((img.header nrec ++ rest).take journalHdrFields).take 8 = journalMagic := rfl
  have hcount := header_field img nrec rest 1 8 rfl rfl (by decide)
  have hdiskPages := header_field img nrec rest 3 16 rfl rfl (by decide)
  have hsector := header_field img nrec rest 4 20 (v := .ofNat journalSector) rfl rfl
    (by decide)
  have hpageSize := header_field img nrec rest 5 24 rfl rfl (by decide)
  have hnonzero : UInt32.ofNat journalSector ≠ 0 := by decide
  simp only [geometry, if_neg hsize, header_slice, hmagic, hcount, hdiskPages, hsector, hpageSize,
    hnonzero, Option.bind_eq_bind, Option.bind_some, ne_eq, not_true_eq_false, false_or,
    Option.some.injEq]

end JournalImage

/-- The record that starts at the end of `pre`. -/
theorem recordAt_recordPieces (nonce : UInt32) {page : UInt32 × Bytes} (hn : page.1 ≠ 0)
    (pre post : Bytes)
    : recordAt (pre ++ (JournalImage.recordPieces nonce page).flatten ++ post) page.2.length nonce
        pre.length = some page := by
  have hfields : pre ++ (JournalImage.recordPieces nonce page).flatten
      = (pre :: JournalImage.recordPieces nonce page).flatten := rfl
  rw [hfields]
  have hnumber : slice ((pre :: JournalImage.recordPieces nonce page).flatten ++ post) pre.length 4
      = some (u32ToBytes page.1) :=
    slice_flatten (k := 1) rfl (by simp) (u32ToBytes_length _) post
  have hpage : slice ((pre :: JournalImage.recordPieces nonce page).flatten ++ post)
      (pre.length + 4) page.2.length = some page.2 :=
    slice_flatten (k := 2) rfl (by simp [JournalImage.recordPieces]) rfl post
  have hcksum : slice ((pre :: JournalImage.recordPieces nonce page).flatten ++ post)
      (pre.length + 4 + page.2.length) 4 = some (u32ToBytes (journalPageChecksum nonce page.2)) :=
    slice_flatten (k := 3) rfl (by simp [JournalImage.recordPieces, Nat.add_assoc])
      (u32ToBytes_length _) post
  have hbe : ∀ v, be32 (u32ToBytes v) 0 = some v := fun v => be32_eq_some.mpr slice_self
  simp only [recordAt, hnumber, hpage, hcksum, hbe, hn, Option.bind_eq_bind, Option.bind_some,
    ne_eq, not_true_eq_false, or_self, ite_false]

theorem recordsAt_records {pageSize : Nat} {nonce : UInt32} {pages : List (UInt32 × Bytes)}
    (hpaged : ∀ page ∈ pages, page.2.length = pageSize) (hpos : ∀ page ∈ pages, page.1 ≠ 0)
    (pre post : Bytes)
    : recordsAt (pre ++ (pages.flatMap (JournalImage.recordPieces nonce)).flatten ++ post) pageSize
        nonce pages.length pre.length = pages := by
  induction pages generalizing pre with
  | nil => rfl
  | cons head tail ih =>
    obtain ⟨hlen, hpaged'⟩ := forall_mem_cons.mp hpaged
    obtain ⟨hn, hpos'⟩ := forall_mem_cons.mp hpos
    subst hlen
    have hoff : (pre ++ (JournalImage.recordPieces nonce head).flatten).length
        = pre.length + (4 + head.2.length + 4) := by
      simp [JournalImage.recordPieces]
      omega
    have htail := ih hpaged' hpos' (pre ++ (JournalImage.recordPieces nonce head).flatten)
    rw [hoff] at htail
    rw [flatMap_cons, flatten_append, ← append_assoc, length_cons, recordsAt, append_assoc _ _ post,
      recordAt_recordPieces nonce hn]
    exact congrArg (head :: ·) (append_assoc _ _ post ▸ htail)

namespace JournalImage

def count (img : JournalImage) : UInt32 :=
  .ofNat img.originals.length

variable {img : JournalImage} {o : Opening}

theorem count_toNat (h : img.Valid) : img.count.toNat = img.originals.length := by
  rw [count, UInt32.toNat_ofNat', mod_eq_of_lt h.count]

abbrev hot (img : JournalImage) : Bytes :=
  img.header img.count ++ img.records

def undoOps (img : JournalImage) : List FileOp :=
  pageOps img.pageSize.toNat img.originals
    ++ [.truncate .db (img.diskPages.toNat * img.pageSize.toNat), .sync .db,
      .truncate .journal 0, .sync .journal]

/-- The one segment of a complete journal holds its pages. -/
theorem pagesFrom_hot (h : img.Valid) (bound : Nat)
    : pagesFrom img.hot journalSector img.pageSize.toNat (bound + 2) 0 = img.originals := by
  have hlen : img.hot.length
      = journalSector + img.originals.length * (4 + img.pageSize.toNat + 4) := by
    rw [length_append, header_length, records_length h]
    rfl
  have hwant : min img.count.toNat
      ((img.hot.length - journalSector) / (4 + img.pageSize.toNat + 4))
      = img.originals.length := by
    rw [count_toNat h, hlen, Nat.add_sub_cancel_left, Nat.mul_div_cancel _ (by omega), min_self]
  have hrecords : recordsAt img.hot img.pageSize.toNat img.nonce img.originals.length journalSector
      = img.originals := by
    have hread := @recordsAt_records _ img.nonce _ h.paged h.positive (img.header img.count) []
    rwa [append_nil, header_length] at hread
  -- no segment follows the records
  have hend : ∀ off, img.hot.length ≤ off →
      pagesFrom img.hot journalSector img.pageSize.toNat (bound + 1) off = [] := fun off hoff => by
    rw [pagesFrom, segmentAt, slice_none.mpr (by unfold journalHdrFields; omega)]
    rfl
  rw [pagesFrom, segmentAt_header]
  simp only [Nat.zero_add, hwant, hrecords, if_neg (show ¬ img.hot.length < journalSector by omega)]
  split_ifs
  · rfl
  rw [hend _ (by rw [hlen]; simp only [journalSector]; omega), append_nil]

theorem recover_uncounted {rest : Bytes} (hjournal : o.vfs.disk.journal = img.header 0 ++ rest)
    : recover o = .ok () o := by
  rw [recover_plays, hjournal, playback, geometry_header, if_pos (.inr (.inr rfl))]
  exact congrArg _ (Opening.after_nil o)

/-- A complete journal is played back and cleared. -/
theorem recover_hot (h : img.Valid) (hne : img.originals ≠ [])
    (hjournal : o.vfs.disk.journal = img.hot)
    : recover o = .ok () (o.after img.undoOps) := by
  have hcount : img.count ≠ 0 := by
    intro hzero
    have hnat := count_toNat h
    rw [hzero] at hnat
    exact hne (length_eq_zero_iff.mp hnat.symm)
  have hpages : pagesFrom img.hot (UInt32.ofNat journalSector).toNat img.pageSize.toNat
      (img.hot.length + 1) 0 = img.originals := by
    obtain ⟨bound, hbound⟩ : ∃ bound, img.hot.length = bound + 1 :=
      exists_eq_add_one.mpr (by rw [length_append, header_length]; unfold journalSector; omega)
    rw [hbound, show (UInt32.ofNat journalSector).toNat = journalSector from rfl, pagesFrom_hot h]
  have hplayed : ¬ (img.pageSize < 512 ∨ !isPowerOfTwo img.pageSize.toNat ∨ img.count = 0) := by
    rw [h.powerOfTwo]
    exact fun hor => hor.elim (not_lt.mpr h.minimum) fun hor => hor.elim nofun hcount
  rw [recover_plays, hjournal,
    playback_ops ((geometry_header _ _ _).trans (if_neg hplayed)) hpages hne, undoOps]

end JournalImage

end GraphiteSql
