import TeraNoC.Hw.NocSystem

/-!
# The response port of a request

The bank remembers on which input of the request crossbar a request came, and the tile turns
that input into an output of the response crossbar (`gen_superbank_resp_ini_addr`). The two
crossbars have the cores at the low indices and the remote ports above them, port 0 being the
one into the group. With more request than response ports the surplus is subtracted once, from
the indices above the last response port. That lands on an inter-group port as long as there are
fewer than twice as many request ports, and as long as the index of the last of them is not cut
off: the index travels in a signal that is only as wide as the response crossbar needs.
-/

namespace TeraNoC.Hw

open TeraNoC.Lib

namespace NocConfig

theorem subBits_eq {a d w : Nat} (hd : d ≤ a) (ha : a < 2 ^ w) : subBits a d w = a - d := by
  have hsub : a + 2 ^ w * d - d = a - d + 2 ^ w * d := by omega
  rw [subBits, slice, Nat.pow_zero, Nat.div_one, hsub, Nat.add_mul_mod_self_left]
  exact Nat.mod_eq_of_lt (by omega)

end NocConfig

/-- The parameters of the tile that count ports. There is always the port into the group. -/
structure TilePorts where
  numCoresPerTile : Nat
  numRemoteReqPortsPerTile : Nat
  numRemoteRespPortsPerTile : Nat
  req_pos : 0 < numRemoteReqPortsPerTile
  resp_pos : 0 < numRemoteRespPortsPerTile

namespace TilePorts

variable (p : TilePorts)

/-- `$bits(local_resp_interco_addr_t)`. -/
def respAddrWidth : Nat := idxWidth (p.numCoresPerTile + p.numRemoteRespPortsPerTile)

def hashWidth : Nat := clog2 (p.numRemoteRespPortsPerTile - 1) + 2

def hashBinningStep : Nat := 2 ^ p.hashWidth / (p.numRemoteRespPortsPerTile - 1)

/-- `superbank_resp_ini_addr` for the answer to a request that came on input `iniAddr` of the
request crossbar; `hash` is a value of the signal of that name. -/
def superbankRespIniAddr (hash iniAddr : Nat) : Nat :=
  -- `mst_req_ini_addr_o` has the width of a response index
  let bankRespIniAddr := slice iniAddr 0 p.respAddrWidth
  if p.numRemoteReqPortsPerTile > p.numRemoteRespPortsPerTile then
    if bankRespIniAddr > p.numCoresPerTile + p.numRemoteRespPortsPerTile - 1 then
      NocConfig.subBits bankRespIniAddr
        (p.numRemoteReqPortsPerTile - p.numRemoteRespPortsPerTile) p.respAddrWidth
    else bankRespIniAddr
  else if p.numRemoteReqPortsPerTile = p.numRemoteRespPortsPerTile then bankRespIniAddr
  else if bankRespIniAddr > p.numCoresPerTile then
    (List.range' 1 (p.numRemoteRespPortsPerTile - 2)).foldl
      (fun sel i => if hash ≥ i * p.hashBinningStep then p.numCoresPerTile + 1 + i else sel)
      (p.numCoresPerTile + 1)
  else bankRespIniAddr

/-- Every answer goes to where its request came from, as far as the ports tell. -/
structure RespondsToSource : Prop where
  core : ∀ hash, ∀ core < p.numCoresPerTile, p.superbankRespIniAddr hash core = core
  group : ∀ hash, p.superbankRespIniAddr hash p.numCoresPerTile = p.numCoresPerTile
  remote : ∀ hash port, 0 < port → port < p.numRemoteReqPortsPerTile →
    p.numCoresPerTile + 1 ≤ p.superbankRespIniAddr hash (p.numCoresPerTile + port) ∧
      p.superbankRespIniAddr hash (p.numCoresPerTile + port)
        ≤ p.numCoresPerTile + p.numRemoteRespPortsPerTile - 1

def Fits : Prop :=
  p.numRemoteReqPortsPerTile ≤ p.numRemoteRespPortsPerTile ∨
    p.numRemoteReqPortsPerTile < 2 * p.numRemoteRespPortsPerTile ∧
      p.numCoresPerTile + p.numRemoteReqPortsPerTile ≤ 2 ^ p.respAddrWidth

end TilePorts

/-- The ports of a configuration with a network. -/
def NocConfig.tilePorts (c : NocConfig) : TilePorts where
  numCoresPerTile := c.numCoresPerTile
  numRemoteReqPortsPerTile := c.numRemoteReqPortsPerTile
  numRemoteRespPortsPerTile := c.numRemoteRespPortsPerTile
  req_pos := by rw [Params.numRemoteReqPortsPerTile]; omega
  resp_pos := by have := c.resp_ports; omega

theorem NocConfig.respIniAddr_eq (c : NocConfig) (m : BankMeta) (r : SlaveResp) :
    c.respIniAddr m r = c.tilePorts.superbankRespIniAddr (c.respHash r) m.iniAddr := rfl

namespace TilePorts

variable {p : TilePorts} {hash iniAddr port : Nat}

theorem respAddr_fits (p : TilePorts) :
    p.numCoresPerTile + p.numRemoteRespPortsPerTile ≤ 2 ^ p.respAddrWidth :=
  le_pow_idxWidth _

/-- The cores and the port into the group keep their index. -/
theorem superbankRespIniAddr_low (h : iniAddr ≤ p.numCoresPerTile) :
    p.superbankRespIniAddr hash iniAddr = iniAddr := by
  have hpos := p.resp_pos
  have hfit := p.respAddr_fits
  simp only [superbankRespIniAddr, slice_eq_self (show iniAddr < 2 ^ p.respAddrWidth by omega)]
  rw [if_neg (show ¬iniAddr > p.numCoresPerTile + p.numRemoteRespPortsPerTile - 1 by omega),
    if_neg (show ¬iniAddr > p.numCoresPerTile by omega)]
  split
  · rfl
  · split <;> rfl

/-- With more request ports, an index that fits is folded once. -/
theorem superbankRespIniAddr_fold (hgt : p.numRemoteRespPortsPerTile < p.numRemoteReqPortsPerTile)
    (hlt : p.numCoresPerTile + port < 2 ^ p.respAddrWidth)
    (hport : p.numRemoteRespPortsPerTile ≤ port)
    (hle : p.numRemoteReqPortsPerTile
      ≤ p.numCoresPerTile + port + p.numRemoteRespPortsPerTile) :
    p.superbankRespIniAddr hash (p.numCoresPerTile + port) =
      p.numCoresPerTile + port + p.numRemoteRespPortsPerTile - p.numRemoteReqPortsPerTile := by
  have hpos := p.resp_pos
  simp only [superbankRespIniAddr, slice_eq_self hlt]
  rw [if_pos hgt, if_pos (by omega), NocConfig.subBits_eq (by omega) hlt]
  omega

/-- The first index that is cut off is that of core 0. -/
theorem superbankRespIniAddr_cut (hgt : p.numRemoteRespPortsPerTile < p.numRemoteReqPortsPerTile)
    (heq : p.numCoresPerTile + port = 2 ^ p.respAddrWidth) :
    p.superbankRespIniAddr hash (p.numCoresPerTile + port) = 0 := by
  have hzero : slice (p.numCoresPerTile + port) 0 p.respAddrWidth = 0 := by
    rw [heq, slice, Nat.pow_zero, Nat.div_one, Nat.mod_self]
  simp only [superbankRespIniAddr, hzero]
  rw [if_pos hgt, if_neg (Nat.not_lt_zero _)]

/-- The binning of the hash stays among the inter-group ports. -/
theorem binned_range (hash : Nat) {l : List Nat}
    (hl : ∀ i ∈ l, i < p.numRemoteRespPortsPerTile - 1) {sel : Nat}
    (hsel : p.numCoresPerTile + 1 ≤ sel ∧
      sel ≤ p.numCoresPerTile + p.numRemoteRespPortsPerTile - 1) :
    p.numCoresPerTile + 1 ≤ l.foldl (fun sel i =>
        if hash ≥ i * p.hashBinningStep then p.numCoresPerTile + 1 + i else sel) sel ∧
      l.foldl (fun sel i =>
        if hash ≥ i * p.hashBinningStep then p.numCoresPerTile + 1 + i else sel) sel
        ≤ p.numCoresPerTile + p.numRemoteRespPortsPerTile - 1 := by
  induction l generalizing sel with
  | nil => exact hsel
  | cons i l ih =>
      have hi := hl i List.mem_cons_self
      refine ih (fun j hj => hl j (List.mem_cons_of_mem _ hj)) ?_
      simp only
      split
      · omega
      · exact hsel

theorem Fits.remote (h : p.Fits) (hash : Nat) (hpos : 0 < port)
    (hlt : port < p.numRemoteReqPortsPerTile) :
    p.numCoresPerTile + 1 ≤ p.superbankRespIniAddr hash (p.numCoresPerTile + port) ∧
      p.superbankRespIniAddr hash (p.numCoresPerTile + port)
        ≤ p.numCoresPerTile + p.numRemoteRespPortsPerTile - 1 := by
  have hfit := p.respAddr_fits
  have hwidth : p.numCoresPerTile + port < 2 ^ p.respAddrWidth := by
    rcases h with h | h <;> omega
  rcases Nat.lt_trichotomy p.numRemoteRespPortsPerTile p.numRemoteReqPortsPerTile
    with hgt | heq | hless
  · obtain ⟨htwice, -⟩ := h.resolve_left (by omega)
    by_cases hport : port < p.numRemoteRespPortsPerTile
    · simp only [superbankRespIniAddr, slice_eq_self hwidth]
      rw [if_pos hgt, if_neg (by omega)]
      omega
    · rw [superbankRespIniAddr_fold hgt hwidth (by omega) (by omega)]
      omega
  · simp only [superbankRespIniAddr, slice_eq_self hwidth]
    rw [if_neg (by omega), if_pos heq.symm]
    omega
  · simp only [superbankRespIniAddr, slice_eq_self hwidth]
    rw [if_neg (by omega), if_neg (by omega), if_pos (by omega)]
    refine binned_range hash (fun i hi => ?_) ⟨by omega, by omega⟩
    have := List.mem_range'_1.mp hi
    omega

theorem RespondsToSource.fits (h : p.RespondsToSource) : p.Fits := by
  have hfit := p.respAddr_fits
  by_contra hno
  rw [Fits, not_or, not_and_or] at hno
  obtain ⟨hgt, htwice | hwidth⟩ := hno
  · -- the fold takes this port down to the one into the group
    by_cases hcut : p.numCoresPerTile + p.numRemoteReqPortsPerTile
        - p.numRemoteRespPortsPerTile < 2 ^ p.respAddrWidth
    · have hbad := h.remote 0 (p.numRemoteReqPortsPerTile - p.numRemoteRespPortsPerTile)
        (by omega) (by have := p.resp_pos; omega)
      rw [superbankRespIniAddr_fold (by omega) (by omega) (by omega) (by omega)] at hbad
      omega
    · have hbad := h.remote 0 (2 ^ p.respAddrWidth - p.numCoresPerTile)
        (by have := p.resp_pos; omega) (by have := p.resp_pos; omega)
      rw [superbankRespIniAddr_cut (by omega) (by omega)] at hbad
      omega
  · have hbad := h.remote 0 (2 ^ p.respAddrWidth - p.numCoresPerTile)
      (by have := p.resp_pos; omega) (by omega)
    rw [superbankRespIniAddr_cut (by omega) (by omega)] at hbad
    omega

end TilePorts

end TeraNoC.Hw
