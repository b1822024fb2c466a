import TeraNoC.Snitch.Decoder

/-!
# The load/store unit (`snitch_lsu`)

One clock cycle of the unit between the core and its data port. A request takes a free
identifier in the cycle in which it is first offered to the memory, and keeps it until
its response comes back; the table of identifiers remembers for each of them where the
answer goes and how it is cut out of the word. Answers may come in any order. The
register in front of the memory and the search for a free identifier are cells of
their own (`LsuCells`).
-/

namespace TeraNoC.Snitch

open TeraNoC.Hw TeraNoC.Lib

instance : Inhabited LsSize := ⟨.byte⟩

instance : Inhabited AmoOp := ⟨.none⟩

structure LsuReq (cfg : CoreConfig) where
  qtag : RegIdx cfg
  qwrite : Bool
  qsigned : Bool
  qaddr : Word
  qdata : Word
  qsize : LsSize
  qamo : AmoOp
  deriving Inhabited

/-- An index into the table of outstanding requests. -/
abbrev MetaId (cfg : CoreConfig) := Fin cfg.numLoads

structure Metadata (cfg : CoreConfig) where
  write : Bool
  tag : RegIdx cfg
  signExt : Bool
  offset : BitVec 2
  size : LsSize

/-- The fall-through register of requests, and the search for a free identifier. -/
structure LsuCells (cfg : CoreConfig) where
  reqReg : FallThroughFifo (LsuReq cfg) 1
  lzc : (MetaId cfg → Bool) → MetaId cfg
  lzc_set : ∀ (a : MetaId cfg → Bool) i, a i = true → a (lzc a) = true

/-- A list for the register, and the first free identifier. -/
def LsuCells.plain (cfg : CoreConfig) : LsuCells cfg where
  reqReg := .list _ 1
  lzc a := ((List.finRange cfg.numLoads).find? a).getD ⟨0, cfg.numLoads_pos⟩
  lzc_set a i h := by
    cases hf : (List.finRange cfg.numLoads).find? a with
    | none => exact absurd h (List.find?_eq_none.mp hf i (List.mem_finRange i))
    | some j => exact List.find?_some hf

structure LsuState {cfg : CoreConfig} (k : LsuCells cfg) where
  idAvailable : MetaId cfg → Bool
  metadata : MetaId cfg → Metadata cfg
  reqIdQ : MetaId cfg
  handshakePending : Bool
  reqReg : k.reqReg.State

def LsuState.reset {cfg : CoreConfig} (k : LsuCells cfg) : LsuState k where
  idAvailable _ := true
  metadata _ := ⟨false, 0, false, 0, .byte⟩
  reqIdQ := ⟨0, cfg.numLoads_pos⟩
  handshakePending := false
  reqReg := k.reqReg.reset

/-- The inputs of a cycle: the core's request, the memory's two handshakes, and whether
the core takes an answer. -/
structure LsuIn (cfg : CoreConfig) where
  req : LsuReq cfg
  qvalid : Bool
  pready : Bool
  dataQready : Bool
  dataPdata : Word
  dataPid : MetaId cfg
  dataPvalid : Bool

namespace LsuState

variable {cfg : CoreConfig} {k : LsuCells cfg} (s : LsuState k) (i : LsuIn cfg)

def lsuQready : Bool := !k.reqReg.full s.reqReg

def lsuEmpty : Bool := decide (∀ j, s.idAvailable j = true)

def idTableFull : Bool := decide (∀ j, s.idAvailable j = false)

def reqId : MetaId cfg := k.lzc s.idAvailable

/-! ## Request -/

def regPush : Bool := i.qvalid && s.lsuQready

def postregReq : LsuReq cfg := k.reqReg.data s.reqReg (s.regPush i) i.req

def postregValid : Bool := !k.reqReg.empty s.reqReg (s.regPush i)

def dataQvalid : Bool := s.postregValid i && (!s.idTableFull || s.handshakePending)

def dataQid : MetaId cfg := if s.handshakePending then s.reqIdQ else s.reqId

/-- `{postreg_lsu_req.lsu_qaddr[31:2], 2'b0}`. -/
def wordAddr (addr : Word) : Word := addr.extractLsb' 2 30 ++ (0 : BitVec 2)

def byteStrobe (size : LsSize) (addr : Word) : BitVec 4 :=
  match size with
  | .byte => (1 : BitVec 4) <<< (addr.extractLsb' 0 2).toNat
  | .halfWord => (3 : BitVec 4) <<< (addr.extractLsb' 0 2).toNat
  | .word => 15
  | .double => 0

/-- Write data, turned so that its low byte is in the lane the address selects. -/
def alignedData (addr data : Word) : Word :=
  match addr.extractLsb' 0 2 with
  | 0#2 => data
  | 1#2 => data.extractLsb' 0 24 ++ data.extractLsb' 24 8
  | 2#2 => data.extractLsb' 0 16 ++ data.extractLsb' 16 16
  | 3#2 => data.extractLsb' 0 8 ++ data.extractLsb' 8 24
  | _ => data

def dataQaddr : Word := wordAddr (s.postregReq i).qaddr

def dataQwrite : Bool := (s.postregReq i).qwrite

def dataQamo : AmoOp := (s.postregReq i).qamo

def dataQstrb : BitVec 4 := byteStrobe (s.postregReq i).qsize (s.postregReq i).qaddr

def dataQdata : Word := alignedData (s.postregReq i).qaddr (s.postregReq i).qdata

def handshakePendingD : Bool := s.dataQvalid i && !i.dataQready

def postregReady : Bool :=
  !s.handshakePendingD i && (!s.idTableFull || s.handshakePending)

def reqMetadata : Metadata cfg where
  write := (s.postregReq i).qwrite
  tag := (s.postregReq i).qtag
  signExt := (s.postregReq i).qsigned
  offset := (s.postregReq i).qaddr.extractLsb' 0 2
  size := (s.postregReq i).qsize

def idTablePush : Bool := s.dataQvalid i && !s.handshakePending

/-! ## Response -/

def respMetadata : Metadata cfg := s.metadata i.dataPid

def loadResult (m : Metadata cfg) (data : Word) : Word :=
  let shifted := data >>> (8 * m.offset.toNat)
  match m.size with
  | .byte =>
      if m.signExt then (shifted.extractLsb' 0 8).signExtend 32
      else (shifted.extractLsb' 0 8).setWidth 32
  | .halfWord =>
      if m.signExt then (shifted.extractLsb' 0 16).signExtend 32
      else (shifted.extractLsb' 0 16).setWidth 32
  | .word => shifted
  | .double => shifted

def ldResult : Word := loadResult (s.respMetadata i) i.dataPdata

def lsuPtag : RegIdx cfg := (s.respMetadata i).tag

def lsuPvalid : Bool := i.dataPvalid && !(s.respMetadata i).write

def dataPready : Bool := i.pready || (s.respMetadata i).write

def idTablePop : Bool := i.dataPvalid && s.dataPready i

/-! ## The clock edge -/

def next : LsuState k where
  idAvailable j :=
    if s.idTablePop i && i.dataPid == j then true
    else if s.idTablePush i && s.reqId == j then false
    else s.idAvailable j
  metadata j := if s.idTablePush i && s.reqId == j then s.reqMetadata i else s.metadata j
  reqIdQ := if s.idTablePush i && !i.dataQready then s.reqId else s.reqIdQ
  handshakePending := s.handshakePendingD i
  reqReg := k.reqReg.next s.reqReg (s.regPush i) i.req (s.postregValid i && s.postregReady i)

end LsuState

end TeraNoC.Snitch
