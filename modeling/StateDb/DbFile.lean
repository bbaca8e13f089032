/-
  StateDb/DbFile.lean
  ===================
  **The database file** (`db_header.h`, `db_header.cpp`, `basic_types.h`, `db.h`,
  `db_wrapper.h`).

  A file is the magic value and the header, as bytes.  `verify_file` takes a file that is
  shorter than `sizeof(db_header)` for an empty or corrupted one and writes it anew.
  `sizeof` counts two pointers to virtual tables which are not in the file, and the magic
  value that is in the file is shorter than they are: so every file that the program
  wrote is written anew (`not_loadsBack`).  Nothing is cut off before that: `clear_file` opens
  with `in | trunc`, which is no valid mode, so what is behind the new header stays
  (`makeFresh_tail`).

  A text is assigned to a field without its terminating zero, over what was there; it reads
  back where a zero byte follows already (`CharArr.assignsBack_iff`).  And the size that
  `db_header` declares leaves out `debug_mode` (`FileObject.sizeDeclared_iff`).
-/
import StateDb.Dtypes

namespace StateDb

/-! ## Fields -/

/-- What a `db_exception` says. -/
inductive DbException where
  | copyFailed     -- "Failed to copy data from raw string to inner container"
  | invalidMagic   -- "Invalid magic value"
deriving DecidableEq, Repr

theorem cstr_append {s d : List UInt8} (hs : (0 : UInt8) ∉ s) : cstr (s ++ d) = s ++ cstr d := by
  unfold cstr
  rw [List.takeWhile_append_of_pos]
  intro c hc
  have hne : c ≠ 0 := fun h => hs (h ▸ hc)
  simpa using hne

/-- The text ends where its characters do just when a zero byte follows. -/
theorem cstr_eq_nil_iff {d : List UInt8} : cstr d = [] ∧ (0 : UInt8) ∈ d ↔ d.head? = some 0 := by
  cases d with
  | nil => simp
  | cons c d =>
    by_cases hc : c = 0
    · simp [cstr, hc]
    · simp [cstr, hc]

/-- `char_arr<SIZE>`. -/
structure CharArr (size : Nat) where
  data : List UInt8
  length_data : data.length = size

namespace CharArr

variable {size : Nat}

theorem ext_data {a a' : CharArr size} (h : a.data = a'.data) : a = a' := by
  cases a
  cases a'
  cases h
  rfl

/-- `char_arr()`. -/
def zero (size : Nat) : CharArr size := ⟨List.replicate size 0, List.length_replicate⟩

/-- `copy_from`: `memcpy_s` fails when the text is longer than the array. -/
def copyFrom (a : CharArr size) (str : List UInt8) : Except DbException (CharArr size) :=
  if h : str.length ≤ size then
    .ok ⟨str ++ a.data.drop str.length, by
      rw [List.length_append, List.length_drop, a.length_data]
      omega⟩
  else .error .copyFailed

/-- `operator=`: `copy_from` with the length that `strlen` finds. -/
def assign (a : CharArr size) (str : List UInt8) : Except DbException (CharArr size) :=
  a.copyFrom (cstr str)

/-- What `operator<<` prints, up to the first zero byte. -/
def text (a : CharArr size) : List UInt8 := cstr a.data

/-- A text that is accepted reads back, and ends within the array. -/
def AssignsBack (a : CharArr size) (str : List UInt8) : Prop :=
  ∀ a', a.assign str = .ok a' → a'.text = cstr str ∧ (0 : UInt8) ∈ a'.data

/-- The array holds a zero byte where the text ends, or refuses the text. -/
theorem assignsBack_iff (a : CharArr size) (str : List UInt8) : a.AssignsBack str ↔
    size < (cstr str).length ∨ a.data[(cstr str).length]? = some 0 := by
  have hzero := zero_notMem_cstr str
  unfold AssignsBack assign copyFrom
  by_cases hlen : (cstr str).length ≤ size
  · have hdata : a.data[(cstr str).length]? = (a.data.drop (cstr str).length).head? :=
      List.head?_drop.symm
    rw [dif_pos hlen, hdata, ← cstr_eq_nil_iff]
    constructor
    · intro hback
      obtain ⟨htext, hmem⟩ := hback _ rfl
      rw [text, cstr_append hzero, List.append_right_eq_self] at htext
      exact Or.inr ⟨htext, (List.mem_append.mp hmem).resolve_left hzero⟩
    · rintro (hshort | ⟨hnil, hmem⟩) a' hassign
      · omega
      · obtain rfl := Except.ok.inj hassign
        rw [text, cstr_append hzero, hnil, List.append_nil]
        exact ⟨rfl, List.mem_append_right _ hmem⟩
  · rw [dif_neg hlen]
    refine iff_of_true ?_ (Or.inl (Nat.not_le.mp hlen))
    intro a' hassign
    cases hassign

/-- `"x"`, assigned where `"abc"` was: the array reads `"xbc"`. -/
theorem shorter_text_not_assignsBack :
    ¬ (⟨[97, 98, 99, 0], rfl⟩ : CharArr 4).AssignsBack [120, 0] := by
  intro hback
  have htext := (hback ⟨[120, 98, 99, 0], rfl⟩ rfl).1
  exact absurd htext (by decide)

end CharArr

/-- `read_object_generic`: a stream that ends leaves the rest of the object as it was. -/
def readBytes (dest stream : List UInt8) : List UInt8 × List UInt8 :=
  (stream.take dest.length ++ dest.drop stream.length, stream.drop dest.length)

theorem length_readBytes (dest stream : List UInt8) :
    (readBytes dest stream).1.length = dest.length := by
  simp only [readBytes, List.length_append, List.length_take, List.length_drop]
  omega

/-- A read of as many bytes as were written gives them back. -/
theorem readBytes_append {dest bytes : List UInt8} (rest : List UInt8)
    (h : bytes.length = dest.length) : readBytes dest (bytes ++ rest) = (bytes, rest) := by
  have hrest : dest.drop (bytes ++ rest).length = [] :=
    List.drop_eq_nil_of_le (by rw [List.length_append]; omega)
  rw [readBytes, hrest, List.append_nil, List.take_left' h, List.drop_left' h]

def CharArr.readFrom {size : Nat} (a : CharArr size) (stream : List UInt8) :
    CharArr size × List UInt8 :=
  let r := readBytes a.data stream
  (⟨r.1, (length_readBytes a.data stream).trans a.length_data⟩, r.2)

theorem CharArr.readFrom_append {size : Nat} (a b : CharArr size) (rest : List UInt8) :
    a.readFrom (b.data ++ rest) = (b, rest) := by
  have hread := readBytes_append rest (b.length_data.trans a.length_data.symm)
  refine Prod.ext (CharArr.ext_data ?_) ?_
  · show (readBytes a.data (b.data ++ rest)).1 = b.data
    rw [hread]
  · show (readBytes a.data (b.data ++ rest)).2 = rest
    rw [hread]

/-- An object of one byte. -/
def readByte (dest : UInt8) (stream : List UInt8) : UInt8 × List UInt8 :=
  (stream.headD dest, stream.tail)

/-! ## The header -/

/-- `STATEDB_MAJOR_VERSION`. -/
def majorVersion : UInt8 := 1

def textBytes (text : String) : List UInt8 := text.toList.map fun c => UInt8.ofNat c.toNat

/-- `DEFAULT_DB_DESCRIPTION`; a debug build says so. -/
def defaultDbDescription (debug : Bool) : List UInt8 :=
  if debug then textBytes "A STATE database (1.0.0-debug)" else textBytes "A STATE database (1.0.0)"

/-- `DEFAULT_DB_NAME`. -/
def defaultDbName : List UInt8 := textBytes "DB"

structure DbMeta where
  version : UInt8 := majorVersion
deriving DecidableEq

structure DbInfo where
  name : CharArr 32 := .zero 32
  description : CharArr 256 := .zero 256

structure DbHeader where
  debugMode : Bool
  dbMeta : DbMeta := {}
  info : DbInfo := {}

namespace DbInfo

def setDefaults (debug : Bool) (info : DbInfo) : Except DbException DbInfo := do
  let description ← info.description.copyFrom (defaultDbDescription debug)
  let name ← info.name.copyFrom defaultDbName
  .ok ⟨name, description⟩

def writeTo (info : DbInfo) : List UInt8 := info.name.data ++ info.description.data

def readFrom (info : DbInfo) (stream : List UInt8) : DbInfo × List UInt8 :=
  let name := info.name.readFrom stream
  let description := info.description.readFrom name.2
  (⟨name.1, description.1⟩, description.2)

@[simp] theorem length_writeTo (info : DbInfo) : info.writeTo.length = 288 := by
  rw [writeTo, List.length_append, info.name.length_data, info.description.length_data]

theorem readFrom_writeTo (info dest : DbInfo) (rest : List UInt8) :
    dest.readFrom (info.writeTo ++ rest) = (info, rest) := by
  rw [writeTo, List.append_assoc, readFrom]
  simp only [CharArr.readFrom_append]

end DbInfo

namespace DbHeader

def setDefaults (debug : Bool) (h : DbHeader) : Except DbException DbHeader := do
  let info ← h.info.setDefaults debug
  .ok { h with info := info, dbMeta := {} }

/-- `bool` is one byte. -/
def debugByte (h : DbHeader) : UInt8 := if h.debugMode then 1 else 0

def writeTo (h : DbHeader) : List UInt8 := h.debugByte :: h.dbMeta.version :: h.info.writeTo

def readFrom (h : DbHeader) (stream : List UInt8) : DbHeader × List UInt8 :=
  let debugMode := readByte h.debugByte stream
  let version := readByte h.dbMeta.version debugMode.2
  let info := h.info.readFrom version.2
  (⟨debugMode.1 ≠ 0, ⟨version.1⟩, info.1⟩, info.2)

@[simp] theorem length_writeTo (h : DbHeader) : h.writeTo.length = 290 := by
  rw [writeTo, List.length_cons, List.length_cons, DbInfo.length_writeTo]

/-- A header is read as it was written. -/
theorem readFrom_writeTo (h dest : DbHeader) (rest : List UInt8) :
    dest.readFrom (h.writeTo ++ rest) = (h, rest) := by
  obtain ⟨debugMode, dbMeta, info⟩ := h
  simp only [writeTo, List.cons_append, readFrom, readByte, List.headD_cons, List.tail_cons,
    DbInfo.readFrom_writeTo]
  cases debugMode <;> rfl

end DbHeader

/-! ## Declared sizes -/

/-- `db_info::get_size`. -/
def DbInfo.getSize (_ : DbInfo) : Nat := 32 + 256

/-- `db_header::get_size`: `sizeof(meta) + info.get_size()`. -/
def DbHeader.getSize (h : DbHeader) : Nat := 1 + h.info.getSize

/-- `db_inner`; the tree is not written. -/
structure DbInner where
  header : DbHeader

/-- The objects that are a `stream_rw`. -/
inductive FileObject where
  | info (i : DbInfo)
  | header (h : DbHeader)
  | inner (d : DbInner)

namespace FileObject

def getSize : FileObject → Nat
  | .info i => i.getSize
  | .header h => h.getSize
  | .inner d => d.header.getSize

def writeTo : FileObject → List UInt8
  | .info i => i.writeTo
  | .header h => h.writeTo
  | .inner d => d.header.writeTo

def readFrom (stream : List UInt8) : FileObject → FileObject × List UInt8
  | .info i => (.info (i.readFrom stream).1, (i.readFrom stream).2)
  | .header h => (.header (h.readFrom stream).1, (h.readFrom stream).2)
  | .inner d => (.inner ⟨(d.header.readFrom stream).1⟩, (d.header.readFrom stream).2)

/-- The declared size is that of what is written, and of what is read of a stream that is
long enough. -/
def SizeDeclared (o : FileObject) : Prop :=
  o.getSize = o.writeTo.length ∧ ∀ stream : List UInt8, o.writeTo.length ≤ stream.length →
    (o.readFrom stream).2.length + o.getSize = stream.length

theorem length_writeTo_header (h : DbHeader) : h.writeTo.length = h.getSize + 1 := by
  rw [DbHeader.length_writeTo]
  rfl

theorem info_readFrom_rest (i : DbInfo) (stream : List UInt8) :
    (i.readFrom stream).2 = stream.drop i.getSize := by
  have hname := i.name.length_data
  have hdescription := i.description.length_data
  simp only [DbInfo.readFrom, CharArr.readFrom, readBytes, hname, hdescription, List.drop_drop]
  rfl

/-- The size of a `db_info` is what it declares, and that of a `db_header` one byte more. -/
theorem sizeDeclared_iff (o : FileObject) : o.SizeDeclared ↔ ∃ i, o = .info i := by
  cases o with
  | info i =>
    refine iff_of_true ⟨(DbInfo.length_writeTo i).symm, fun stream hlen => ?_⟩ ⟨i, rfl⟩
    have hsize : i.writeTo.length = i.getSize := DbInfo.length_writeTo i
    show (i.readFrom stream).2.length + i.getSize = stream.length
    change i.writeTo.length ≤ stream.length at hlen
    rw [info_readFrom_rest, List.length_drop]
    omega
  | header h =>
    refine iff_of_false (fun hdeclared => ?_) (by rintro ⟨i, hi⟩; cases hi)
    have hsize : h.getSize = h.writeTo.length := hdeclared.1
    rw [length_writeTo_header] at hsize
    omega
  | inner d =>
    refine iff_of_false (fun hdeclared => ?_) (by rintro ⟨i, hi⟩; cases hi)
    have hsize : d.header.getSize = d.header.writeTo.length := hdeclared.1
    rw [length_writeTo_header] at hsize
    omega

/-- `debug_mode` is written and read, but not counted. -/
theorem header_not_sizeDeclared :
    getSize (.header { debugMode := false }) = 289 ∧
      (writeTo (.header { debugMode := false })).length = 290 ∧
      ¬ SizeDeclared (.header { debugMode := false }) := by
  refine ⟨rfl, DbHeader.length_writeTo _, fun hdeclared => ?_⟩
  have hsize : 289 = (DbHeader.writeTo { debugMode := false }).length := hdeclared.1
  rw [DbHeader.length_writeTo] at hsize
  omega

end FileObject

/-! ## The file -/

/-- `db_magic::value`. -/
def dbMagic : List UInt8 := textBytes "StAtE1" ++ [0]

/-- `db_inner::write_to`, behind the magic value. -/
def dbFile (h : DbHeader) : List UInt8 := dbMagic ++ h.writeTo

/-- How the compiler lays out `db_header`: the pointers to the virtual tables of
`db_header` and `db_info`, and the padding. -/
structure HeaderLayout where
  headerTable : Nat
  infoTable : Nat
  padding : Nat
  headerTable_ge : 4 ≤ headerTable
  infoTable_ge : 4 ≤ infoTable

/-- `MINIMAL_HEADER_SIZE`, which is `sizeof(db_header)`. -/
def HeaderLayout.minimalHeaderSize (l : HeaderLayout) : Nat :=
  l.headerTable + 1 + 1 + (l.infoTable + 32 + 256) + l.padding

/-- What `load_data` did, the file that is left, and the header that the database has. -/
inductive Loaded where
  | reloaded (header : DbHeader)
  | rewritten (file : List UInt8) (header : DbHeader)

/-- The header of a `db_inner` that was just made. -/
def freshHeader (debug : Bool) : DbHeader := { debugMode := debug }

/-- What a file holds after a write at its beginning. -/
def overwrite (file bytes : List UInt8) : List UInt8 := bytes ++ file.drop bytes.length

/-- `clear_file`: a stream that is opened for `in | trunc`, and not for `out`, does not open, and
the file is not truncated. -/
def clearFile (file : List UInt8) : List UInt8 := file

/-- `make_fresh`. -/
def makeFresh (debug : Bool) (file : List UInt8) : Except DbException Loaded := do
  let header ← (freshHeader debug).setDefaults debug
  .ok (.rewritten (overwrite file (dbFile header)) header)

/-- `verify_magic`, and what is left of the stream. -/
def verifyMagic (stream : List UInt8) : Except DbException (List UInt8) :=
  let r := readBytes dbMagic stream
  if r.1 = dbMagic then .ok r.2 else .error .invalidMagic

/-- `reload`. -/
def reload (debug : Bool) (file : List UInt8) : Except DbException Loaded := do
  let stream ← verifyMagic file
  .ok (.reloaded ((freshHeader debug).readFrom stream).1)

/-- `load_data` of a file that can be opened. -/
def loadData (l : HeaderLayout) (debug : Bool) (file : List UInt8) : Except DbException Loaded :=
  if file.length < l.minimalHeaderSize then makeFresh debug (clearFile file)
  else reload debug file

@[simp] theorem length_dbMagic : dbMagic.length = 7 := by decide

theorem length_dbFile (h : DbHeader) : (dbFile h).length = 297 := by
  rw [dbFile, List.length_append, length_dbMagic, DbHeader.length_writeTo]

/-- The reader is the inverse of the writer. -/
theorem reload_dbFile (debug : Bool) (h : DbHeader) :
    reload debug (dbFile h) = .ok (.reloaded h) := by
  have hmagic : verifyMagic (dbFile h) = .ok h.writeTo := by
    rw [verifyMagic, dbFile, readBytes_append _ rfl]
    exact if_pos rfl
  have hheader : (freshHeader debug).readFrom h.writeTo = (h, []) := by
    have hread := DbHeader.readFrom_writeTo h (freshHeader debug) []
    rwa [List.append_nil] at hread
  rw [reload, hmagic]
  show Except.ok (Loaded.reloaded ((freshHeader debug).readFrom h.writeTo).1) = _
  rw [hheader]

/-- The file of the header is reloaded, and gives the header. -/
def LoadsBack (l : HeaderLayout) (debug : Bool) (h : DbHeader) : Prop :=
  loadData l debug (dbFile h) = .ok (.reloaded h)

/-- `sizeof(db_header)` is at least two pointers more than what is written of it. -/
theorem minimalHeaderSize_ge (l : HeaderLayout) : 298 ≤ l.minimalHeaderSize := by
  have hheader := l.headerTable_ge
  have hinfo := l.infoTable_ge
  unfold HeaderLayout.minimalHeaderSize
  omega

/-- The texts of the defaults fit. -/
theorem makeFresh_ok (debug : Bool) (file : List UInt8) : ∃ header,
    makeFresh debug file = .ok (.rewritten (overwrite file (dbFile header)) header) ∧
      header.dbMeta = {} := by
  have hdescription : (defaultDbDescription debug).length ≤ 256 := by
    cases debug <;> decide
  have hname : defaultDbName.length ≤ 32 := by decide
  simp only [makeFresh, DbHeader.setDefaults, DbInfo.setDefaults, CharArr.copyFrom,
    dif_pos hdescription, dif_pos hname]
  exact ⟨_, rfl, rfl⟩

/-- The header is written over the first 297 bytes, and the others stay. -/
theorem makeFresh_tail {debug : Bool} {file file' : List UInt8} {header : DbHeader}
    (h : makeFresh debug file = .ok (.rewritten file' header)) :
    file'.take 297 = dbFile header ∧ file'.drop 297 = file.drop 297 := by
  obtain ⟨header', heq, -⟩ := makeFresh_ok debug file
  obtain ⟨rfl, rfl⟩ := Loaded.rewritten.inj (Except.ok.inj (heq.symm.trans h))
  have hlength := length_dbFile header'
  rw [overwrite, List.take_left' hlength, List.drop_left' hlength, hlength]
  exact ⟨rfl, rfl⟩

theorem makeFresh_not_reloaded {debug : Bool} {file : List UInt8} {h : DbHeader} :
    makeFresh debug file ≠ .ok (.reloaded h) := by
  obtain ⟨header, heq, -⟩ := makeFresh_ok debug file
  rw [heq]
  exact fun h => by cases h

/-- The file of a header is shorter than `MINIMAL_HEADER_SIZE`, on any layout. -/
theorem loadData_dbFile (l : HeaderLayout) (debug : Bool) (h : DbHeader) :
    loadData l debug (dbFile h) = makeFresh debug (dbFile h) := by
  have hshort : (dbFile h).length < l.minimalHeaderSize := by
    rw [length_dbFile]
    exact minimalHeaderSize_ge l
  rw [loadData, if_pos hshort, clearFile]

/-- No file that the program wrote is reloaded: every one is written anew. -/
theorem not_loadsBack (l : HeaderLayout) (debug : Bool) (h : DbHeader) : ¬ LoadsBack l debug h := by
  unfold LoadsBack
  rw [loadData_dbFile]
  exact makeFresh_not_reloaded

/-- The layout of a 64-bit compiler. -/
def layout64 : HeaderLayout := ⟨8, 8, 6, by decide, by decide⟩

/-- A header with the version 7 is lost: the file is written anew, with the version 1. -/
theorem version_not_loadsBack : (∃ file header,
    loadData layout64 false (dbFile ⟨false, ⟨7⟩, {}⟩) = .ok (.rewritten file header) ∧
      header.dbMeta.version = 1) ∧ ¬ LoadsBack layout64 false ⟨false, ⟨7⟩, {}⟩ := by
  obtain ⟨header, hfresh, hmeta⟩ := makeFresh_ok false (dbFile ⟨false, ⟨7⟩, {}⟩)
  unfold LoadsBack
  rw [loadData_dbFile]
  exact ⟨⟨_, header, hfresh, by rw [hmeta]; rfl⟩, makeFresh_not_reloaded⟩

end StateDb
