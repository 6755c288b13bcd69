import OspreyBlake2b.Lib.Machine
import OspreyBlake2b.Miner.Gbt

/-! Solo mining over every run: the blocks handed to the node against the template
the header in force was made from. -/

namespace OspreyBlake2b.Miner

open OspreyBlake2b.Lib OspreyBlake2b.Hash.Sha256

/-- A `gbt_get_work` at time `t`, or a candidate reported by the FPGA, with what the
node answers should it be asked. -/
inductive SoloEvent where
  | work (t : U64) (reply : Option (List Byte))
  | candidate (nonce hashTop64 : U64) (reply : Option (List Byte))
  deriving DecidableEq

/-- `ground` is history: the transactions of the template `g_gbt_hdr` was made
from. -/
structure Solo where
  gbt : Gbt
  ground : List TemplateTx

def soloInit (cfg : GbtCfg) : Solo := ⟨gbtInit cfg, []⟩

def Solo.step (s : Solo) : SoloEvent → Solo
  | .work t reply =>
    match gbtGetWork s.gbt t reply with
    | (g, none) => ⟨g, s.ground⟩
    | (g, some _) => ⟨g, (templateTxs g.resp).txs⟩
  | .candidate nonce hashTop64 reply =>
    ⟨(gbtOnCandidate s.gbt nonce hashTop64 reply).1, s.ground⟩

/-- The held template and the header `c` belong together: the template holds the
bytes of `txs`, and the header commits to its coinbase followed by `txs`. -/
structure Template.BelongsTo (tpl : Template) (c : KnotsHeader) (txs : List TemplateTx) :
    Prop where
  txCount : tpl.txCount = txs.length
  txData : tpl.txData = txs.flatMap TemplateTx.raw
  merkleRoot : merkleRoot (tpl.cb.txid :: txs.map TemplateTx.id) = some c.hashMerkleRoot.toList
  mTxcount : c.mTxcount.toNat = tpl.txCount + 1

/-- A call of `get_template` that fails leaves the held template as it was, or
invalid; a header `submit_block` is called on goes with the held template (without
a valid one `submit_block` gives up). -/
def BlocksConsistent (s : Solo) : SoloEvent → Prop
  | .work _ reply =>
    (getTemplate s.gbt reply).2.toOption = none →
      (getTemplate s.gbt reply).1.tpl = s.gbt.tpl ∨ (getTemplate s.gbt reply).1.tpl.valid = false
  | .candidate nonce hashTop64 reply =>
    ∀ c, (gbtOnCandidate s.gbt nonce hashTop64 reply).2.2 = some c → s.gbt.tpl.valid = true →
      s.gbt.tpl.BelongsTo c s.ground

/-- A reply that reaches the transactions has them fit, and has a payout address and
a witness commitment a coinbase can be built from. -/
def completes (g : Gbt) (reply : Option (List Byte)) : Bool :=
  match rpcCall g.resp reply with
  | none => true
  | some r =>
    match templateHead r with
    | .error _ => true
    | .ok hd => (templateTxs r).fits &&
        (bech32DecodeAddr (devfeeNextPayout g.devfee g.cfg.payoutAddress).2).isSome &&
        (coinbaseHex2bin hd.wc 64).isSome

def NoLateFailure (s : Solo) : SoloEvent → Prop
  | .work _ reply => s.gbt.tpl.valid = true → completes s.gbt reply = true
  | .candidate _ _ _ => True

instance (s : Solo) : (e : SoloEvent) → Decidable (NoLateFailure s e)
  | .work _ reply =>
    inferInstanceAs (Decidable (s.gbt.tpl.valid = true → completes s.gbt reply = true))
  | .candidate _ _ _ => isTrue trivial

theorem merkleRow_head {ids : List (List Byte)} (count : Nat) (h : (ids.headD []).length = 32) :
    ((merkleRow count ids).headD []).length = 32 := by
  simp only [merkleRow]
  generalize List.range ((count + 1) / 2) = is
  induction is generalizing ids with
  | nil => exact h
  | cons i is ih =>
    apply ih
    cases ids with
    | nil => exact h
    | cons a as =>
      cases i with
      | zero => simp
      | succ i => exact h

theorem merkleLoop_head {ids : List (List Byte)} (fuel count : Nat)
    (h : (ids.headD []).length = 32) : ((merkleLoop fuel count ids).headD []).length = 32 := by
  induction fuel generalizing count ids with
  | zero => exact h
  | succ fuel ih =>
    simp only [merkleLoop]
    split
    · exact ih _ (merkleRow_head count h)
    · exact h

theorem merkleRoot_cons (id : List Byte) (ids : List (List Byte)) (h : id.length = 32) :
    ∃ root, merkleRoot (id :: ids) = some root ∧ root.length = 32 :=
  ⟨_, rfl, merkleLoop_head _ _ h⟩

theorem bytes32_toList {l : List Byte} (h : l.length = 32) : (bytes32 l).toList = l := by
  simp [bytes32, toVector, h, Vector.toList]

theorem walkTxs_length (slots used : Nat) (p : List Byte) :
    (walkTxs slots used p).txs.length ≤ slots := by
  fun_induction walkTxs slots used p <;> simp_all [Walk.done, Walk.cons]

theorem bech32Program_length {data program : List Byte}
    (h : bech32Program data = some program) : program.length ≤ 40 := by
  rw [bech32Program] at h
  generalize convert5to8 bech32MaxProgram (groupCount data.length) data.tail 0 0 [] = r at h
  cases r with
  | none => cases h
  | some out =>
    simp only [ite_eq_iff, reduceCtorEq, and_false, false_or, not_or, not_lt,
      Option.some.injEq] at h
    obtain ⟨hlen, -, rfl⟩ := h
    exact hlen.2

theorem bech32DecodeAddr_program {addr : List Byte} {a : Bech32Addr}
    (h : bech32DecodeAddr addr = some a) : a.program.length ≤ 40 := by
  simp only [bech32DecodeAddr, Option.bind_eq_bind, Option.bind_eq_some_iff] at h
  obtain ⟨⟨hrp, text⟩, -, symbols, -, h⟩ := h
  simp only [ite_eq_iff, reduceCtorEq, and_false, false_or, Option.bind_eq_some_iff] at h
  obtain ⟨-, -, -, program, hprogram, h⟩ := h
  cases h
  exact bech32Program_length hprogram

theorem coinbaseOf_txid (script spk wc : List Byte) (value : U64) :
    (coinbaseOf script spk wc value).txid.length = 32 := by
  simp only [coinbaseOf, sha256d_length]

theorem coinbaseBuild_txid {address wcHex : List Byte} {value extranonce : U64} {height : U32}
    {cb : Coinbase} (h : coinbaseBuild address value height extranonce wcHex = .ok cb) :
    cb.txid.length = 32 := by
  simp only [coinbaseBuild] at h
  split at h
  · cases h
  split at h
  · cases h
  split at h
  · cases h
  · cases h
    exact coinbaseOf_txid _ _ _ _

theorem coinbaseBuild_ok {address wcHex : List Byte} (value extranonce : U64) (height : U32)
    (ha : (bech32DecodeAddr address).isSome = true)
    (hwc : (coinbaseHex2bin wcHex 64).isSome = true) :
    ∃ cb, coinbaseBuild address value height extranonce wcHex = .ok cb := by
  obtain ⟨a, ha⟩ := Option.isSome_iff_exists.mp ha
  obtain ⟨wc, hwc⟩ := Option.isSome_iff_exists.mp hwc
  have hspk : ¬ 64 < a.program.length + 2 := by
    have := bech32DecodeAddr_program ha
    omega
  simp [coinbaseBuild, ha, hwc, bech32Scriptpubkey, hspk]

theorem templateHead_flags {r : List Byte} {hd : TemplateHead} (h : templateHead r = .ok hd) :
    hd.hdr.mFlags = 0 := by
  simp only [templateHead] at h
  split at h
  case h_2 => cases h
  case h_1 =>
    split at h
    · cases h
    split at h
    · cases h
    split at h
    · cases h
    · cases h
      rfl

/-- Either the template ends up filled and valid, or the call has broken off with
`g_tpl` half-way, and its validity as it was. -/
inductive Filled (g g' : Gbt) (hd : TemplateHead) : Except TemplateError KnotsHeader → Prop where
  | late (e : TemplateError) (hvalid : g'.tpl.valid = g.tpl.valid)
      (hfail : (templateTxs g.resp).fits = true →
        (bech32DecodeAddr (devfeeNextPayout g.devfee g.cfg.payoutAddress).2).isSome = true →
        (coinbaseHex2bin hd.wc 64).isSome = false) : Filled g g' hd (.error e)
  | ok (h : KnotsHeader) (hresp : g'.resp = g.resp) (hflags : h.mFlags = hd.hdr.mFlags)
      (hbelongs : g'.tpl.BelongsTo h (templateTxs g.resp).txs) : Filled g g' hd (.ok h)

theorem fillTemplate_cases (g : Gbt) (hd : TemplateHead) :
    Filled g (fillTemplate g hd).1 hd (fillTemplate g hd).2 := by
  have hlen : (templateTxs g.resp).txs.length ≤ tplMaxTx := walkTxs_length _ _ _
  simp only [fillTemplate]
  split
  case isTrue hfits =>
    refine .late _ rfl fun h => ?_
    rw [h] at hfits
    exact absurd hfits (by simp)
  case isFalse =>
    split
    case h_1 e herr =>
      refine .late _ rfl fun _ ha => ?_
      rw [← Bool.not_eq_true]
      intro hwc
      obtain ⟨cb, hcb⟩ := coinbaseBuild_ok hd.cbvalue
        (devfeeNextPayout g.devfee g.cfg.payoutAddress).1.total hd.height ha hwc
      rw [hcb] at herr
      cases herr
    case h_2 cb hcb =>
      obtain ⟨root, hroot, hrootlen⟩ := merkleRoot_cons cb.txid
        ((templateTxs g.resp).txs.map TemplateTx.id) (coinbaseBuild_txid hcb)
      simp only [hroot]
      refine .ok _ rfl rfl ⟨rfl, rfl, ?_, ?_⟩
      · simp only [hroot, bytes32_toList hrootlen]
      · simp only [BitVec.toNat_ofNat, tplMaxTx] at hlen ⊢
        omega

inductive Fetched (g g' : Gbt) (reply : Option (List Byte)) :
    Except TemplateError KnotsHeader → Prop where
  | early (e : TemplateError) (htpl : g'.tpl = g.tpl) (hhdr : g'.gbtHdr = g.gbtHdr) :
      Fetched g g' reply (.error e)
  | late (e : TemplateError) (hvalid : g'.tpl.valid = g.tpl.valid) (hfail : completes g reply = false) :
      Fetched g g' reply (.error e)
  | ok (h : KnotsHeader) (hflags : h.mFlags = 0)
      (hbelongs : g'.tpl.BelongsTo h (templateTxs g'.resp).txs) : Fetched g g' reply (.ok h)

theorem getTemplate_cases (g : Gbt) (reply : Option (List Byte)) :
    Fetched g (getTemplate g reply).1 reply (getTemplate g reply).2 := by
  cases hr : rpcCall g.resp reply with
  | none =>
    simp only [getTemplate, hr]
    exact .early _ rfl rfl
  | some r =>
    cases hhd : templateHead r with
    | error e =>
      simp only [getTemplate, hr, hhd]
      exact .early _ rfl rfl
    | ok hd =>
      have hfill := fillTemplate_cases { g with resp := r } hd
      simp only [getTemplate, hr, hhd]
      generalize fillTemplate { g with resp := r } hd = out at hfill ⊢
      obtain ⟨g', res⟩ := out
      cases hfill with
      | late e hvalid hfail =>
        refine .late e hvalid ?_
        rw [← Bool.not_eq_true]
        intro hc
        simp only [completes, hr, hhd, Bool.and_eq_true] at hc
        rw [hfail hc.1.1 hc.1.2] at hc
        exact Bool.false_ne_true hc.2
      | ok h hresp hflags hbelongs =>
        refine .ok h (hflags.trans (templateHead_flags hhd)) ?_
        rw [hresp]
        exact hbelongs

def Held (s : Solo) : Prop :=
  s.gbt.tpl.valid = true → s.gbt.tpl.BelongsTo s.gbt.gbtHdr s.ground

theorem stageInputs_of_flags {h : KnotsHeader} (hflags : h.mFlags = 0) :
    ∃ st, stageInputs h = some st := by
  simp [stageInputs, hflags]

theorem submitBlock_frame (g : Gbt) (c : KnotsHeader) (reply : Option (List Byte)) :
    (submitBlock g c reply).1.tpl = g.tpl ∧ (submitBlock g c reply).1.gbtHdr = g.gbtHdr := by
  simp only [submitBlock]
  grind

theorem held_work (s : Solo) (t : U64) (reply : Option (List Byte)) (h : Held s)
    (hlate : s.gbt.tpl.valid = true → completes s.gbt reply = true) :
    Held (s.step (.work t reply)) := by
  have hfetch := getTemplate_cases s.gbt reply
  simp only [Solo.step, gbtGetWork]
  generalize getTemplate s.gbt reply = out at hfetch
  obtain ⟨g', res⟩ := out
  cases hfetch with
  | early e htpl hhdr =>
    simp only [Held]
    rw [htpl, hhdr]
    exact h
  | late e hvalid hfail =>
    intro hv
    rw [hlate (hvalid ▸ hv)] at hfail
    cases hfail
  | ok hdr hflags hbelongs =>
    obtain ⟨st, hst⟩ := stageInputs_of_flags (h := { hdr with
      mExtranonce := (hdr.mExtranonce.set 0 (t.setWidth 8)).set 1 ((t >>> 8).setWidth 8) }) hflags
    simp only [buildWork, hst]
    intro _
    exact ⟨hbelongs.txCount, hbelongs.txData, hbelongs.merkleRoot, hbelongs.mTxcount⟩

theorem gbtOnCandidate_frame (g : Gbt) (nonce hashTop64 : U64) (reply : Option (List Byte)) :
    (gbtOnCandidate g nonce hashTop64 reply).1.tpl = g.tpl ∧
      (gbtOnCandidate g nonce hashTop64 reply).1.gbtHdr = g.gbtHdr := by
  simp only [gbtOnCandidate]
  grind [submitBlock_frame]

theorem gbtOnCandidate_header {g : Gbt} {nonce hashTop64 : U64} {reply : Option (List Byte)}
    {c : KnotsHeader} (h : (gbtOnCandidate g nonce hashTop64 reply).2.2 = some c) :
    c = withNonce g.gbtHdr nonce := by
  simp only [gbtOnCandidate] at h
  grind

theorem held_step (s : Solo) (e : SoloEvent) (h : Held s) (hlate : NoLateFailure s e) :
    Held (s.step e) ∧ BlocksConsistent s e := by
  cases e with
  | work t reply =>
    refine ⟨held_work s t reply h hlate, ?_⟩
    have hfetch := getTemplate_cases s.gbt reply
    simp only [BlocksConsistent]
    generalize getTemplate s.gbt reply = out at hfetch
    obtain ⟨g', res⟩ := out
    intro hnone
    cases hfetch with
    | early e htpl hhdr => exact .inl htpl
    | late e hvalid hfail =>
      right
      rw [hvalid, ← Bool.not_eq_true]
      intro hv
      rw [hlate hv] at hfail
      cases hfail
    | ok hdr => cases hnone
  | candidate nonce hashTop64 reply =>
    obtain ⟨htpl, hhdr⟩ := gbtOnCandidate_frame s.gbt nonce hashTop64 reply
    refine ⟨?_, fun c hc hvalid => ?_⟩
    · simp only [Held, Solo.step]
      rw [htpl, hhdr]
      exact h
    · rw [gbtOnCandidate_header hc]
      have hb := h hvalid
      exact ⟨hb.txCount, hb.txData, hb.merkleRoot, hb.mTxcount⟩

theorem blocks_consistent (cfg : GbtCfg) (events : List SoloEvent)
    (h : Machine.Along Solo.step NoLateFailure (soloInit cfg) events) :
    Machine.Along Solo.step BlocksConsistent (soloInit cfg) events := by
  refine Machine.Along.of_invariant Held held_step ?_ h
  intro hvalid
  cases hvalid

def demoTemplate (txs wc : String) : List Byte :=
  ascii "\x7b\"result\":\x7b\"version\":536870912,\"previousblockhash\":\"" ++
    ascii "0000000000000000000000000000000000000000000000000000000000000001" ++
    ascii "\",\"transactions\":[" ++ ascii txs ++ ascii "],\"coinbasevalue\":5000000000," ++
    ascii "\"curtime\":1700000000,\"bits\":\"207fffff\",\"height\":969912" ++
    ascii ",\"default_witness_commitment\":\"" ++ ascii wc ++ ascii "\"\x7d,\"error\":null\x7d"

def demoTx : String := "\x7b\"data\":\"0200\",\"txid\":\"" ++
  "00000000000000000000000000000000000000000000000000000000000000aa\"\x7d"

def demoSoloCfg : GbtCfg := ⟨none, blake2bTargetShiftMainnet, false⟩

def demoSolutionTop64 : U64 := 0xfad4deb9f2eed061#64

def demoSolution : SoloEvent := .candidate 0 demoSolutionTop64 none

def demoWork : SoloEvent := .work 1000 (some (demoTemplate "" "6a24aa21a9ed"))

theorem blocks_consistent_one_template :
    Machine.Along Solo.step NoLateFailure (soloInit demoSoloCfg) [demoWork, demoSolution] ∧
      Machine.Along Solo.step BlocksConsistent (soloInit demoSoloCfg) [demoWork, demoSolution] :=
  have h : Machine.Along Solo.step NoLateFailure (soloInit demoSoloCfg) [demoWork, demoSolution] := by
    decide +kernel
  ⟨h, blocks_consistent demoSoloCfg [demoWork, demoSolution] h⟩

/-- A second template whose witness commitment has an odd number of digits: its one
transaction is taken, the coinbase is not. -/
def demoMixed : Solo :=
  Machine.run Solo.step (soloInit demoSoloCfg)
    [demoWork, .work 1030 (some (demoTemplate demoTx "6a2"))]

theorem block_of_two_templates :
    demoMixed.gbt.tpl.txCount = 1 ∧ demoMixed.gbt.gbtHdr.mTxcount = 1 ∧
      ¬BlocksConsistent demoMixed demoSolution := by
  have hdemo : (gbtOnCandidate demoMixed.gbt 0 demoSolutionTop64 none).2.2.isSome = true ∧
      demoMixed.gbt.tpl.valid = true ∧ demoMixed.gbt.tpl.txCount = 1 ∧
      demoMixed.gbt.gbtHdr.mTxcount = 1 := by decide +kernel
  obtain ⟨hcalled, hstate⟩ := hdemo
  obtain ⟨c, hc⟩ := Option.isSome_iff_exists.mp hcalled
  refine ⟨hstate.2.1, hstate.2.2, fun h => ?_⟩
  have hbelongs := (h c hc hstate.1).mTxcount
  rw [gbtOnCandidate_header hc, hstate.2.1] at hbelongs
  simp only [withNonce, hstate.2.2] at hbelongs
  exact absurd hbelongs (by decide)

end OspreyBlake2b.Miner
