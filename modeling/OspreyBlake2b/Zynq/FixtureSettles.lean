import OspreyBlake2b.Zynq.FixtureRuns

namespace OspreyBlake2b.Zynq

open OspreyBlake2b.Lib OspreyBlake2b.Lib.JsonText OspreyBlake2b.Miner

section Quiet

variable {lib : Hashlib} {chain : Chain} {difficulty : Number} {target : Int}
  {worker password : List Byte} {l : Link} {steps : Nat} {cs : List Conn} {c : Conn}

end Quiet

section Rest

variable {lib : Hashlib} (hlib : lib.Agrees) (host : List Byte) (port : Int)
  {worker password : List Byte} (hworker : worker.length ≤ 159) (hpassword : password.length ≤ 159)
  (hplain : ∀ b ∈ worker ++ password, Json.Plain b) (dev : Option Stratum) (chain : Chain)
  (difficulty : Number) (acceptTarget : Nat) {target : Int}
  (htarget : difficultyToTarget (.round difficulty.val) = some target)

include hlib hworker hpassword hplain htarget

end Rest

end OspreyBlake2b.Zynq
