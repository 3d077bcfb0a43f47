import BaboEngine.LittleEndian

/-!
# The workload file

The binary file of a message stream: `write_binary` of the generator, `load_workload` of the
harness, and `bench::load_workload` of the micro-benchmarks, on a little-endian machine. A reader
is `none` where the source returns false.
-/

namespace BaboEngine.Workload
open LittleEndian

def workloadMagic : UInt64 := 0x4D4542575F303031

def workloadVersion : UInt32 := 1

def workloadMax : UInt32 := 100 * 1000 * 1000

/-! ## The writer -/

/-- A message of the generator. -/
structure Msg where
  ts : Int64
  type : UInt8
  side : UInt8
  ioc : UInt8
  qty : UInt32
  orderId : UInt64
  priceTicks : Int64
deriving DecidableEq

def writeMsg (seq : Nat) (m : Msg) : List UInt8 :=
  [m.type,m.side,m.ioc,0] ++ bytes 4 m.qty.toNat ++ bytes 8 seq ++ bytes 8 m.orderId.toNat ++
    bytes 8 m.priceTicks.toUInt64.toNat ++ bytes 8 0

def writeMsgs : Nat → List Msg → List UInt8
  | _, [] => []
  | seq, m :: tl => writeMsg seq m ++ writeMsgs (seq + 1) tl

def writeBinary (tl : List Msg) : List UInt8 :=
  bytes 8 workloadMagic.toNat ++ bytes 4 workloadVersion.toNat ++ bytes 4 (UInt32.ofNat tl.length).toNat ++ writeMsgs 0 tl

/-! ## The reader of the micro-benchmarks -/

namespace Bench

structure WMsg where
  type : UInt8
  side : UInt8
  ioc : UInt8
  qty : UInt32
  seq : UInt64
  orderId : UInt64
  price : Int64
deriving DecidableEq

/-- One record, field by field. -/
def readMsg (file : List UInt8) : Option (WMsg × List UInt8) := do
  let (hdr,file) ← fread 4 file
  let (qty,file) ← fread 4 file
  let (seq,file) ← fread 8 file
  let (oid,file) ← fread 8 file
  let (price,file) ← fread 8 file
  let (_,file) ← fread 8 file
  some (⟨hdr.getD 0 0,hdr.getD 1 0,hdr.getD 2 0,u32 qty,u64 seq,u64 oid,i64 price⟩,file)

def readMsgs : Nat → List UInt8 → Option (List WMsg)
  | 0, _ => some []
  | n + 1, file => do
    let (m,file) ← readMsg file
    some (m :: (← readMsgs n file))

def loadWorkload (file : List UInt8) : Option (List WMsg) := do
  let (magic,file) ← fread 8 file
  let (_,file) ← fread 4 file
  let (count,file) ← fread 4 file
  if u64 magic ≠ workloadMagic then none else readMsgs (u32 count).toNat file

end Bench

/-! ## The reader of the harness -/

/-- The 40-byte record on disk. -/
structure RawRecord where
  type : UInt8
  side : UInt8
  ioc : UInt8
  pad : UInt8
  qty : UInt32
  seq : UInt64
  orderId : UInt64
  priceTicks : Int64
  reserved : Int64

structure WorkloadMsg where
  type : UInt8
  side : UInt8
  ioc : UInt8
  qty : UInt32
  seq : UInt64
  orderId : UInt64
  priceTicks : Int64
deriving DecidableEq

/-- A record as it lies in memory. -/
def rawRecord (r : List UInt8) : RawRecord where
  type := r.getD 0 0
  side := r.getD 1 0
  ioc := r.getD 2 0
  pad := r.getD 3 0
  qty := u32 (slice 4 4 r)
  seq := u64 (slice 8 8 r)
  orderId := u64 (slice 16 8 r)
  priceTicks := i64 (slice 24 8 r)
  reserved := i64 (slice 32 8 r)

def RawRecord.msg (r : RawRecord) : WorkloadMsg := ⟨r.type,r.side,r.ioc,r.qty,r.seq,r.orderId,r.priceTicks⟩

/-- The loop over the records that were read in one block. -/
def checkRecords : List RawRecord → Option (List WorkloadMsg)
  | [] => some []
  | r :: raw => if r.type > 2 then none else do some (r.msg :: (← checkRecords raw))

def loadWorkload (file : List UInt8) : Option (List WorkloadMsg) := do
  let (magic,file) ← fread 8 file
  let (version,file) ← fread 4 file
  let (count,file) ← fread 4 file
  if u64 magic ≠ workloadMagic then none
  else if u32 version ≠ workloadVersion then none
  else if u32 count = 0 ∨ u32 count > workloadMax then none
  else do
    let (raw,_) ← fread (40 * (u32 count).toNat) file
    checkRecords ((pieces 40 (u32 count).toNat raw).map rawRecord)

/-- The same message for the micro-benchmarks. -/
def WorkloadMsg.wMsg (m : WorkloadMsg) : Bench.WMsg := ⟨m.type,m.side,m.ioc,m.qty,m.seq,m.orderId,m.priceTicks⟩

/-! ## What the bytes of a file say -/

def magicOf (file : List UInt8) : UInt64 := u64 (file.take 8)

def versionOf (file : List UInt8) : UInt32 := u32 (slice 8 4 file)

def countOf (file : List UInt8) : UInt32 := u32 (slice 12 4 file)

/-- The records that a file declares. -/
def recordsOf (file : List UInt8) : List (List UInt8) := pieces 40 (countOf file).toNat (file.drop 16)

/-- The magic number stands at the start, and the file holds as many records as it declares. -/
structure Complete (file : List UInt8) : Prop where
  magic : magicOf file = workloadMagic
  records : 16 + 40 * (countOf file).toNat ≤ file.length

/-- The version, the number of records and the type of each record are those of the format. -/
structure InFormat (file : List UInt8) : Prop where
  version : versionOf file = workloadVersion
  count : countOf file ≠ 0 ∧ countOf file ≤ workloadMax
  types : ∀ r ∈ recordsOf file, r.getD 0 0 ≤ 2

instance (file : List UInt8) : Decidable (Complete file) :=
  decidable_of_iff (magicOf file = workloadMagic ∧ 16 + 40 * (countOf file).toNat ≤ file.length)
    ⟨fun h => ⟨h.1,h.2⟩,fun h => ⟨h.magic,h.records⟩⟩

instance (file : List UInt8) : Decidable (InFormat file) :=
  decidable_of_iff (versionOf file = workloadVersion ∧ (countOf file ≠ 0 ∧ countOf file ≤ workloadMax) ∧
    ∀ r ∈ recordsOf file, r.getD 0 0 ≤ 2) ⟨fun h => ⟨h.1,h.2.1,h.2.2⟩,fun h => ⟨h.version,h.count,h.types⟩⟩

/-! ## What the readers make of a file -/

/-- Field by field or in one block, a record is the same. -/
theorem readMsg_eq (file : List UInt8) : Bench.readMsg file =
    if 40 ≤ file.length then some ((rawRecord (file.take 40)).msg.wMsg,file.drop 40) else none := by
  have first (n : Nat) : fread n file = fread n (file.drop 0) := rfl
  by_cases enough : 40 ≤ file.length
  · have field (o n : Nat) (inside : o + n ≤ 40) : fread n (file.drop o) = some (slice o n file,file.drop (o + n)) :=
      fread_drop (by omega)
    rw [if_pos enough]
    simp only [Bench.readMsg,first 4,field 0 4 (by omega),field 4 4 (by omega),field 8 8 (by omega),field 16 8 (by omega),
      field 24 8 (by omega),field 32 8 (by omega),Option.bind_eq_bind,Option.bind_some]
    simp only [rawRecord,RawRecord.msg,WorkloadMsg.wMsg,slice_take (show 4 + 4 ≤ 40 by omega),slice_take (show 8 + 8 ≤ 40 by omega),
      slice_take (show 16 + 8 ≤ 40 by omega),slice_take (show 24 + 8 ≤ 40 by omega)]
    simp [slice]
  · have field (o n : Nat) (positive : 0 < n) : fread n (file.drop o) = none ∨
        fread n (file.drop o) = some (slice o n file,file.drop (o + n)) := by
      cases Nat.lt_or_ge file.length (o + n) with
      | inl short => exact .inl (fread_drop_short short positive)
      | inr room => exact .inr (fread_drop room)
    have last : fread 8 (file.drop 32) = none := fread_drop_short (by omega) (by omega)
    rw [if_neg enough]
    simp only [Bench.readMsg,first 4,Option.bind_eq_bind]
    rcases field 0 4 (by omega) with h | h <;> simp only [h,Option.bind_none,Option.bind_some]
    rcases field 4 4 (by omega) with h | h <;> simp only [h,Option.bind_none,Option.bind_some]
    rcases field 8 8 (by omega) with h | h <;> simp only [h,Option.bind_none,Option.bind_some]
    rcases field 16 8 (by omega) with h | h <;> simp only [h,Option.bind_none,Option.bind_some]
    rcases field 24 8 (by omega) with h | h <;> simp only [h,last,Option.bind_none,Option.bind_some]

theorem readMsgs_eq (n : Nat) : ∀ file : List UInt8, Bench.readMsgs n file =
    if 40 * n ≤ file.length then some ((pieces 40 n file).map fun r => (rawRecord r).msg.wMsg) else none := by
  induction n with
  | zero => intro file; simp [Bench.readMsgs,pieces]
  | succ n ih =>
    intro file
    rw [Bench.readMsgs,readMsg_eq]
    by_cases one : 40 ≤ file.length
    · rw [if_pos one]
      simp only [Option.bind_eq_bind,Option.bind_some,ih,List.length_drop]
      by_cases all : 40 * n ≤ file.length - 40
      · rw [if_pos all,if_pos (by omega)]
        rfl
      · rw [if_neg all,if_neg (by omega)]
        rfl
    · rw [if_neg one,if_neg (by omega)]
      rfl

theorem checkRecords_eq (raw : List RawRecord) : checkRecords raw =
    if ∀ r ∈ raw, r.type ≤ 2 then some (raw.map RawRecord.msg) else none := by
  induction raw with
  | nil => simp [checkRecords]
  | cons r raw ih =>
    rw [checkRecords,ih]
    by_cases bad : r.type > 2
    · have notAll : ¬ ∀ x ∈ r :: raw, x.type ≤ 2 := fun all => UInt8.not_lt.mpr (all r (by simp)) bad
      rw [if_pos bad,if_neg notAll]
    · have good : r.type ≤ 2 := UInt8.not_lt.mp bad
      rw [if_neg bad]
      by_cases rest : ∀ x ∈ raw, x.type ≤ 2
      · have all : ∀ x ∈ r :: raw, x.type ≤ 2 := by simpa [good] using rest
        rw [if_pos rest,if_pos all]
        rfl
      · have notAll : ¬ ∀ x ∈ r :: raw, x.type ≤ 2 := fun all => rest fun x member => all x (by simp [member])
        rw [if_neg rest,if_neg notAll]
        rfl

/-- The messages of the records of a file. -/
def messagesOf (file : List UInt8) : List WorkloadMsg := (recordsOf file).map fun r => (rawRecord r).msg

/-- The header of a file, in three reads. -/
theorem header_eq {file : List UInt8} (enough : 16 ≤ file.length) : fread 8 file = some (file.take 8,file.drop 8) ∧
    fread 4 (file.drop 8) = some (slice 8 4 file,file.drop 12) ∧ fread 4 (file.drop 12) = some (slice 12 4 file,file.drop 16) :=
  ⟨if_pos (by omega),fread_drop (by omega),fread_drop (by omega)⟩

/-- Neither reader gets past less than a header. -/
theorem header_short {β : Type} {file : List UInt8} (short : ¬ 16 ≤ file.length)
    (next : List UInt8 × List UInt8 → List UInt8 × List UInt8 → List UInt8 × List UInt8 → Option β) :
    ((fread 8 file).bind fun a => (fread 4 a.2).bind fun b => (fread 4 b.2).bind fun c => next a b c) = none := by
  by_cases magic : 8 ≤ file.length
  · have first : fread 8 file = some (file.take 8,file.drop 8) := if_pos magic
    rw [first,Option.bind_some]
    by_cases version : 12 ≤ file.length
    · have second : fread 4 (file.drop 8) = some (slice 8 4 file,file.drop 12) := fread_drop (by omega)
      have third : fread 4 (file.drop 12) = none := fread_drop_short (by omega) (by omega)
      rw [second,Option.bind_some,third,Option.bind_none]
    · have second : fread 4 (file.drop 8) = none := fread_drop_short (by omega) (by omega)
      rw [second,Option.bind_none]
  · have first : fread 8 file = none := if_neg magic
    rw [first,Option.bind_none]

/-- The reader of the micro-benchmarks takes every complete file. -/
theorem benchLoad_eq (file : List UInt8) : Bench.loadWorkload file =
    if Complete file then some ((messagesOf file).map WorkloadMsg.wMsg) else none := by
  by_cases enough : 16 ≤ file.length
  · obtain ⟨first,second,third⟩ := header_eq enough
    have run : Bench.loadWorkload file = if magicOf file ≠ workloadMagic then none else
        Bench.readMsgs (countOf file).toNat (file.drop 16) := by
      simp only [Bench.loadWorkload,first,second,third,Option.bind_eq_bind,Option.bind_some]
      rfl
    rw [run,readMsgs_eq,List.length_drop]
    by_cases magic : magicOf file = workloadMagic
    · rw [if_neg (not_not.mpr magic)]
      by_cases records : 40 * (countOf file).toNat ≤ file.length - 16
      · have complete : Complete file := ⟨magic,by omega⟩
        rw [if_pos records,if_pos complete,messagesOf,List.map_map]
        rfl
      · have notComplete : ¬ Complete file := fun complete => records (by have := complete.records; omega)
        rw [if_neg records,if_neg notComplete]
    · rw [if_pos magic,if_neg fun complete : Complete file => magic complete.magic]
  · have notComplete : ¬ Complete file := fun complete => enough (by have := complete.records; omega)
    rw [if_neg notComplete]
    exact header_short enough _

/-- The reader of the harness takes those that are in the format. -/
theorem load_eq (file : List UInt8) : loadWorkload file =
    if Complete file ∧ InFormat file then some (messagesOf file) else none := by
  by_cases enough : 16 ≤ file.length
  · obtain ⟨first,second,third⟩ := header_eq enough
    have run : loadWorkload file = if magicOf file ≠ workloadMagic then none else if versionOf file ≠ workloadVersion then none
        else if countOf file = 0 ∨ countOf file > workloadMax then none
        else (fread (40 * (countOf file).toNat) (file.drop 16)).bind fun a =>
          checkRecords ((pieces 40 (countOf file).toNat a.1).map rawRecord) := by
      simp only [loadWorkload,first,second,third,Option.bind_eq_bind,Option.bind_some]
      rfl
    rw [run]
    by_cases magic : magicOf file = workloadMagic
    · rw [if_neg (not_not.mpr magic)]
      by_cases version : versionOf file = workloadVersion
      · rw [if_neg (not_not.mpr version)]
        by_cases count : countOf file = 0 ∨ countOf file > workloadMax
        · have notIn : ¬ (Complete file ∧ InFormat file) := by
            rintro ⟨_,inFormat⟩
            exact count.elim inFormat.count.1 (UInt32.not_lt.mpr inFormat.count.2)
          rw [if_pos count,if_neg notIn]
        · rw [if_neg count]
          obtain ⟨some,few⟩ := not_or.mp count
          by_cases records : 16 + 40 * (countOf file).toNat ≤ file.length
          · rw [fread_drop (by omega),Option.bind_some]
            simp only [slice,pieces_take,checkRecords_eq]
            have types : (∀ r ∈ (pieces 40 (countOf file).toNat (file.drop 16)).map rawRecord, r.type ≤ 2) ↔
                ∀ r ∈ recordsOf file, r.getD 0 0 ≤ 2 := List.forall_mem_map
            by_cases good : ∀ r ∈ recordsOf file, r.getD 0 0 ≤ 2
            · rw [if_pos (types.mpr good),if_pos ⟨⟨magic,records⟩,version,⟨some,UInt32.not_lt.mp few⟩,good⟩,List.map_map]
              rfl
            · rw [if_neg (mt types.mp good),if_neg fun h => good h.2.types]
          · rw [fread_drop_short (by omega) (by
              have : (countOf file).toNat ≠ 0 := fun zero => some (UInt32.toNat_inj.mp zero)
              omega),if_neg fun h => records h.1.records]
            rfl
      · rw [if_pos version,if_neg fun h => version h.2.version]
    · rw [if_pos magic,if_neg fun h => magic h.1.magic]
  · have notComplete : ¬ Complete file := fun complete => enough (by have := complete.records; omega)
    rw [if_neg fun h => notComplete h.1]
    exact header_short enough _

/-! ## What the writer leaves in a file -/

/-- A message of the generator as a reader should see it, at its position in the timeline. -/
def Msg.sent (seq : Nat) (m : Msg) : WorkloadMsg := ⟨m.type,m.side,m.ioc,m.qty,UInt64.ofNat seq,m.orderId,m.priceTicks⟩

theorem rawRecord_writeMsg (seq : Nat) (m : Msg) : (rawRecord (writeMsg seq m)).msg = m.sent seq := by
  have qty : slice 4 4 (writeMsg seq m) = bytes 4 m.qty.toNat := rfl
  have position : slice 8 8 (writeMsg seq m) = bytes 8 seq := rfl
  have orderId : slice 16 8 (writeMsg seq m) = bytes 8 m.orderId.toNat := rfl
  have price : slice 24 8 (writeMsg seq m) = bytes 8 m.priceTicks.toUInt64.toNat := rfl
  simp only [rawRecord,RawRecord.msg,qty,position,orderId,price,u32_bytes,u64_bytes,i64,UInt32.ofNat_toNat,UInt64.ofNat_toNat,
    Int64.toInt64_toUInt64,Msg.sent]
  rfl

theorem length_writeMsgs : ∀ (seq : Nat) (tl : List Msg), (writeMsgs seq tl).length = 40 * tl.length
  | _, [] => rfl
  | seq, m :: tl => by
    have one : (writeMsg seq m).length = 40 := rfl
    rw [writeMsgs,List.length_append,one,length_writeMsgs (seq + 1) tl,List.length_cons]
    omega

theorem pieces_writeMsgs : ∀ (seq : Nat) (tl : List Msg),
    pieces 40 tl.length (writeMsgs seq tl) = tl.mapIdx fun i m => writeMsg (seq + i) m
  | _, [] => rfl
  | seq, m :: tl => by
    have one : (writeMsg seq m).length = 40 := rfl
    have rest := pieces_writeMsgs (seq + 1) tl
    rw [writeMsgs,List.length_cons,pieces,List.mapIdx_cons,← one,List.take_left,List.drop_left,one,rest]
    simp only [Nat.add_zero,Nat.add_assoc,Nat.add_comm 1]

/-- The file of a timeline whose length fits its header. -/
theorem writeBinary_complete {tl : List Msg} (few : tl.length < 2 ^ 32) : Complete (writeBinary tl) ∧
    versionOf (writeBinary tl) = workloadVersion ∧ (countOf (writeBinary tl)).toNat = tl.length ∧
      recordsOf (writeBinary tl) = tl.mapIdx writeMsg := by
  have header : (writeBinary tl).drop 16 = writeMsgs 0 tl := rfl
  have count : countOf (writeBinary tl) = UInt32.ofNat tl.length := by
    have field : slice 12 4 (writeBinary tl) = bytes 4 (UInt32.ofNat tl.length).toNat := rfl
    rw [countOf,field,u32_bytes,UInt32.ofNat_toNat]
  have number : (countOf (writeBinary tl)).toNat = tl.length := by
    rw [count,UInt32.toNat_ofNat_of_lt' few]
  have length : (writeBinary tl).length = 16 + 40 * tl.length := by
    simp only [writeBinary,List.length_append,length_bytes,length_writeMsgs]
  refine ⟨⟨?_,by omega⟩,?_,number,?_⟩
  · have field : (writeBinary tl).take 8 = bytes 8 workloadMagic.toNat := rfl
    rw [magicOf,field,u64_bytes,UInt64.ofNat_toNat]
  · have field : slice 8 4 (writeBinary tl) = bytes 4 workloadVersion.toNat := rfl
    rw [versionOf,field,u32_bytes,UInt32.ofNat_toNat]
  · rw [recordsOf,number,header,pieces_writeMsgs]
    simp only [Nat.zero_add]

theorem messagesOf_writeBinary {tl : List Msg} (few : tl.length < 2 ^ 32) :
    messagesOf (writeBinary tl) = tl.mapIdx Msg.sent := by
  obtain ⟨_,_,_,records⟩ := writeBinary_complete few
  rw [messagesOf,records]
  apply List.ext_getElem (by simp)
  intro i _ _
  rw [List.getElem_map,List.getElem_mapIdx,List.getElem_mapIdx,rawRecord_writeMsg]

/-- The file of a timeline is in the format where none of the messages is of a fourth type. -/
theorem writeBinary_inFormat {tl : List Msg} (some : 1 ≤ tl.length) (few : tl.length ≤ 100000000) :
    InFormat (writeBinary tl) ↔ ∀ m ∈ tl, m.type ≤ 2 := by
  obtain ⟨_,version,number,records⟩ := writeBinary_complete (show tl.length < 2 ^ 32 by omega)
  have count : countOf (writeBinary tl) ≠ 0 ∧ countOf (writeBinary tl) ≤ workloadMax := by
    constructor
    · intro zero
      rw [zero] at number
      simp at number
      omega
    · rw [UInt32.le_iff_toNat_le,number]
      exact few
  have types : (∀ r ∈ recordsOf (writeBinary tl), r.getD 0 0 ≤ 2) ↔ ∀ m ∈ tl, m.type ≤ 2 := by
    rw [records]
    constructor
    · intro all m member
      obtain ⟨i,inside,rfl⟩ := List.getElem_of_mem member
      exact all (writeMsg i tl[i]) (List.mem_mapIdx.mpr ⟨i,inside,rfl⟩)
    · intro all r member
      obtain ⟨i,inside,rfl⟩ := List.mem_mapIdx.mp member
      exact all tl[i] (List.getElem_mem inside)
  exact ⟨fun inFormat => types.mp inFormat.types,fun all => ⟨version,count,types.mpr all⟩⟩

theorem writeBinary_counted {tl : List Msg} (few : tl.length < 2 ^ 32) (inFormat : InFormat (writeBinary tl)) : tl.length ≤ 100000000 := by
  rw [← (writeBinary_complete few).2.2.1]
  exact UInt32.le_iff_toNat_le.mp inFormat.count.2

/-- The two readers agree on a file exactly where it is in the format or not complete. What the writer leaves of a timeline
    the micro-benchmarks read back, and the harness does exactly where all messages are of the three types. -/
theorem readers_agree_iff (file : List UInt8) (tl : List Msg) :
    (Bench.loadWorkload file = (loadWorkload file).map (List.map WorkloadMsg.wMsg) ↔ (Complete file → InFormat file)) ∧
    (1 ≤ tl.length → tl.length ≤ 100000000 →
      Bench.loadWorkload (writeBinary tl) = some ((tl.mapIdx Msg.sent).map WorkloadMsg.wMsg) ∧
      (loadWorkload (writeBinary tl) = some (tl.mapIdx Msg.sent) ↔ ∀ m ∈ tl, m.type ≤ 2)) := by
  constructor
  · rw [benchLoad_eq,load_eq]
    by_cases complete : Complete file
    · by_cases inFormat : InFormat file
      · simp [complete,inFormat]
      · simp [complete,inFormat]
    · simp [complete]
  · intro some few
    obtain ⟨complete,_⟩ := writeBinary_complete (show tl.length < 2 ^ 32 by omega)
    have messages := messagesOf_writeBinary (show tl.length < 2 ^ 32 by omega)
    rw [benchLoad_eq,load_eq,messages,← writeBinary_inFormat some few]
    by_cases inFormat : InFormat (writeBinary tl)
    · simp [complete,inFormat]
    · simp [complete,inFormat]

/-- One buy. -/
theorem readers_agree_iff_buy : Bench.loadWorkload (writeBinary [⟨0,0,0,0,5,1,100⟩]) = some [⟨0,0,0,5,0,1,100⟩] ∧
    loadWorkload (writeBinary [⟨0,0,0,0,5,1,100⟩]) = some [⟨0,0,0,5,0,1,100⟩] := by
  obtain ⟨bench,harness⟩ := (readers_agree_iff [] [⟨0,0,0,0,5,1,100⟩]).2 (by decide) (by decide)
  exact ⟨bench,harness.mpr (by decide)⟩

/-- A file of the next version with one record is read by the micro-benchmarks and refused by the harness. -/
theorem readers_disagree :
    let file := bytes 8 workloadMagic.toNat ++ bytes 4 2 ++ bytes 4 1 ++ List.replicate 40 0
    file.length = 56 ∧ Bench.loadWorkload file = some [⟨0,0,0,0,0,0,0⟩] ∧ loadWorkload file = none ∧
      ¬ ∀ file : List UInt8, Bench.loadWorkload file = (loadWorkload file).map (List.map WorkloadMsg.wMsg) := by
  intro file
  have bench : Bench.loadWorkload file = some [⟨0,0,0,0,0,0,0⟩] := by decide
  have harness : loadWorkload file = none := by decide
  refine ⟨by decide,bench,harness,fun agree => ?_⟩
  have next := agree file
  rw [bench,harness] at next
  cases next

end BaboEngine.Workload
