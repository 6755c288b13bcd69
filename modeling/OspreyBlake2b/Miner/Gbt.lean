import OspreyBlake2b.Lib.CScan
import OspreyBlake2b.Miner.Block
import OspreyBlake2b.Miner.WorksrcStratum

/-! The solo path of `miner/miner.c`: the JSON-RPC client, block templates, the
blocks handed to the node, and the `gbt` work source, with the
template half of `miner/devfee.c`. -/

namespace OspreyBlake2b.Miner

open OspreyBlake2b.Lib OspreyBlake2b.Hash.Blake2b

def respSize : Nat := 4 * 1024 * 1024

/-- `reply` is what the node sends until the connection ends, `none` a failure to
connect or to write.  The response buffer is static: behind the terminating NUL
it keeps what earlier calls left, up to trailing zeros. -/
def rpcCall (resp : List Byte) (reply : Option (List Byte)) : Option (List Byte) :=
  reply.map fun r =>
    let got := r.take (respSize - 1)
    got ++ 0#8 :: resp.drop (got.length + 1)

def jsonColon (s : List Byte) (key : String) : Option (List Byte) := do
  let p ← strstr (quoted (ascii key)) s
  strchr (char ':') (p.drop (quoted (ascii key)).length)

def jsonNum (s : List Byte) (key : String) : Option Int :=
  (jsonColon s key).map fun p => strtoll (p.drop 1)

def jsonStr (s : List Byte) (key : String) (outsz : Nat) : Option (List Byte) := do
  let p ← jsonColon s key
  let p ← strchr (char '"') p
  let p := p.drop 1
  let e ← strchr (char '"') p
  let len := p.length - e.length
  if len ≥ outsz then none else some (p.take len)

def hex2binN : Nat → List Byte → Option (List Byte)
  | 0, _ => some []
  | n + 1, hex => do
    let v ← sscanf2x hex
    let rest ← hex2binN n (hex.drop 2)
    return v :: rest

def hex2bin (hex : List Byte) (outlen : Nat) : Option (List Byte) :=
  if hex.length ≠ outlen * 2 then none else hex2binN outlen hex

structure DevfeeTemplates where
  total : U64
  dev : U64
  currentIsDev : Bool
  deriving DecidableEq

def devfeeAddress : List Byte := ascii "bc1qztsz84mn408vfklya05sgf8v4j2wtfrscszene"

def devfeeNextPayout (d : DevfeeTemplates) (user : Option (List Byte)) :
    DevfeeTemplates × List Byte :=
  let total := d.total + 1
  if total.toNat % devfeeInterval = 0 then (⟨total, d.dev + 1, true⟩, devfeeAddress)
  else (⟨total, d.dev, false⟩, user.getD devfeeAddress)

def tplMaxTx : Nat := 8192

def tplDataSize : Nat := 4 * 1024 * 1024

/-- `tx_data[0 .. tx_data_len)` is `txData`; every walk starts it from nothing. -/
structure Template where
  hdr : KnotsHeader
  cb : Coinbase
  txCount : Nat
  txData : List Byte
  valid : Bool
  deriving DecidableEq

structure GbtCfg where
  payoutAddress : Option (List Byte)
  targetShift : Nat
  dryRun : Bool
  deriving DecidableEq

structure Gbt where
  cfg : GbtCfg
  resp : List Byte
  tpl : Template
  gbtHdr : KnotsHeader
  devfee : DevfeeTemplates
  blocksSubmitted : U64
  blocksAccepted : U64
  deriving DecidableEq

def zeroHeader : KnotsHeader := { knotsHeaderInit with nVersion := 0, nBits := 0 }

def gbtInit (cfg : GbtCfg) : Gbt where
  cfg := cfg
  resp := []
  tpl := ⟨zeroHeader, zeroCoinbase, 0, [], false⟩
  gbtHdr := zeroHeader
  devfee := ⟨0, 0, false⟩
  blocksSubmitted := 0
  blocksAccepted := 0

inductive TemplateError where
  | rpc
  | parse
  | prevhash
  | coinbasevalue
  | txData
  | coinbase
  | merkle
  deriving DecidableEq

def TemplateError.text : TemplateError → String
  | .rpc => "rpc connect failed"
  | .parse => "template parse failed"
  | .prevhash => "prevhash parse failed"
  | .coinbasevalue => "template has no coinbasevalue"
  | .txData => "template transactions exceed the 4194304-byte block buffer"
  | .coinbase => "coinbase build failed (payout address rejected?)"
  | .merkle => "merkle root failed"

/-- What `get_template` takes from a reply before it touches `g_tpl`. -/
structure TemplateHead where
  hdr : KnotsHeader
  height : U32
  cbvalue : U64
  wc : List Byte
  deriving DecidableEq

def bytes32 (l : List Byte) : Vector Byte 32 := (toVector 32 l).getD (Vector.replicate 32 0)

def templateHead (r : List Byte) : Except TemplateError TemplateHead :=
  match jsonNum r "height", jsonNum r "curtime", jsonNum r "version", jsonStr r "bits" 32,
    jsonStr r "previousblockhash" 80 with
  | some height, some curtime, some version, some bits, some prev =>
    match hex2bin prev 32 with
    | none => .error .prevhash
    | some pb =>
      match jsonNum r "coinbasevalue" with
      | none => .error .coinbasevalue
      | some cbvalue =>
        if cbvalue ≤ 0 then .error .coinbasevalue
        else .ok {
          hdr := { knotsHeaderInit with
            nVersion := BitVec.ofInt 32 version
            nTime := BitVec.ofInt 32 curtime
            nBits := strtoul16 bits
            mHeight := BitVec.ofInt 32 height
            hashPrevBlock := bytes32 pb.reverse }
          height := BitVec.ofInt 32 height
          cbvalue := BitVec.ofInt 64 cbvalue
          wc := (jsonStr r "default_witness_commitment" 256).getD [] }
  | _, _, _, _, _ => .error .parse

structure TemplateTx where
  id : List Byte
  raw : List Byte
  deriving DecidableEq

/-- The transactions a walk has stored, and whether it ended without running out of
room for their bytes. -/
structure Walk where
  txs : List TemplateTx
  fits : Bool
  deriving DecidableEq

def Walk.done : Walk := ⟨[], true⟩

def Walk.cons (tx : TemplateTx) (w : Walk) : Walk := ⟨tx :: w.txs, w.fits⟩

/-- The walk over the transactions from `p` on, with `slots` free in `ids` and
`used` bytes of `tx_data` taken.  A pointer is further on when less text follows. -/
def walkTxs : Nat → Nat → List Byte → Walk
  | 0, _, _ => .done
  | slots + 1, used, p =>
    match strstr (ascii "\"txid\":\"") p with
    | none => .done
    | some tx =>
      let tx := tx.drop 8
      match hex2binN 32 tx with
      | none => .done
      | some disp =>
        match strstr (ascii "\"data\":\"") p with
        | none => .done
        | some dt =>
          let dt := dt.drop 8
          match strchr (char '"') dt with
          | none => .done
          | some fin =>
            let nbytes := (dt.length - fin.length) / 2
            if used + nbytes > tplDataSize then ⟨[], false⟩
            else
              match hex2binN nbytes dt with
              | none => .done
              | some raw =>
                .cons ⟨disp.reverse, raw⟩
                  (walkTxs slots (used + nbytes) (if tx.length < dt.length then tx else dt))

def templateTxs (r : List Byte) : Walk := walkTxs tplMaxTx 0 r

def fillTemplate (g : Gbt) (hd : TemplateHead) : Gbt × Except TemplateError KnotsHeader :=
  let w := templateTxs g.resp
  let tpl := { g.tpl with txCount := w.txs.length, txData := w.txs.flatMap TemplateTx.raw }
  if !w.fits then ({ g with tpl := tpl }, .error .txData)
  else
    let (devfee, payout) := devfeeNextPayout g.devfee g.cfg.payoutAddress
    match coinbaseBuild payout hd.cbvalue hd.height devfee.total hd.wc with
    | .error _ => ({ g with tpl := { tpl with cb := zeroCoinbase }, devfee := devfee },
        .error .coinbase)
    | .ok cb =>
      match merkleRoot (cb.txid :: w.txs.map TemplateTx.id) with
      | none => ({ g with tpl := { tpl with cb := cb }, devfee := devfee }, .error .merkle)
      | some root =>
        let h := { hd.hdr with
          hashMerkleRoot := bytes32 root, mTxcount := BitVec.ofNat 16 (w.txs.length + 1) }
        ({ g with tpl := { tpl with cb := cb, hdr := h, valid := true }, devfee := devfee }, .ok h)

def getTemplate (g : Gbt) (reply : Option (List Byte)) : Gbt × Except TemplateError KnotsHeader :=
  match rpcCall g.resp reply with
  | none => (g, .error .rpc)
  | some r =>
    match templateHead r with
    | .error e => ({ g with resp := r }, .error e)
    | .ok hd => fillTemplate { g with resp := r } hd

def blkSize : Nat := 4 * 1024 * 1024 + 4096

def blockAccepted (r : List Byte) : Bool :=
  match strstr (ascii "\"result\":") r with
  | some res => starts (ascii "null") (res.drop 9)
  | none => false

/-- With the block that went to the node, if one did. -/
def submitBlock (g : Gbt) (winner : KnotsHeader) (reply : Option (List Byte)) :
    Gbt × Int × Option (List Byte) :=
  if !g.tpl.valid then (g, -1, none)
  else
    match blockSerialize winner g.tpl.cb.raw g.tpl.txData g.tpl.txCount blkSize with
    | none => (g, -1, none)
    | some blk =>
      let g := { g with blocksSubmitted := g.blocksSubmitted + 1 }
      match rpcCall g.resp reply with
      | none => (g, -1, some blk)
      | some r =>
        let g := { g with resp := r }
        if blockAccepted r then ({ g with blocksAccepted := g.blocksAccepted + 1 }, 0, some blk)
        else (g, -1, some blk)

def expectedHashTop64 (h : KnotsHeader) : U64 :=
  match stageInputs h with
  | none => 0
  | some s => beWord 64 ((blake2bNokey s.ss4 32).drop 24)

def buildWork (g : Gbt) (t : U64) (h : KnotsHeader) : Gbt × Option WorkCtx :=
  let h := { h with
    mExtranonce := (h.mExtranonce.set 0 (t.setWidth 8)).set 1 ((t >>> 8).setWidth 8) }
  match stageInputs h with
  | none => (g, none)
  | some s =>
    ({ g with gbtHdr := h },
      some ⟨s.ss3, s.ss4, targetTop64FromBits h.nBits g.cfg.targetShift, true⟩)

def gbtGetWork (g : Gbt) (t : U64) (reply : Option (List Byte)) : Gbt × Option WorkCtx :=
  match getTemplate g reply with
  | (g, .error _) => (g, none)
  | (g, .ok h) => buildWork g t h

def withNonce (h : KnotsHeader) (nonce : U64) : KnotsHeader :=
  { h with nNonce := nonce.setWidth 32, mNonce2 := (nonce >>> 32).setWidth 32 }

/-- With the header `submit_block` was called on, if it was. -/
def gbtOnCandidate (g : Gbt) (nonce hashTop64 : U64) (reply : Option (List Byte)) :
    Gbt × Verdict × Option KnotsHeader :=
  let c := withNonce g.gbtHdr nonce
  if expectedHashTop64 c ≠ hashTop64 then (g, .bad, none)
  else
    match getPowHash c with
    | none => (g, .ok, none)
    | some pow =>
      if !hashMeetsTarget pow (compactToTargetShifted c.nBits blake2bTargetShiftMainnet) then
        (g, .ok, none)
      else if !g.cfg.dryRun ∧ g.cfg.targetShift = blake2bTargetShiftMainnet then
        ((submitBlock g c reply).1, .solution, some c)
      else (g, .solution, none)

end OspreyBlake2b.Miner
