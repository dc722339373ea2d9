import EvmDexPool.Lib.Fixed
import EvmDexPool.Log

/-!
# The ERC-4626 vaults and their logs (`erc4626/standard.rs`, `erc4626/verio_ip.rs`)

Reserves are `U256` and move by its wrapping operators.
-/

namespace EvmDexPool.ERC4626

/-- `ERC4626Standard` (standard.rs:17). -/
structure ERC4626Standard where
  address : Address
  vaultToken : Address
  assetToken : Address
  vaultReserve : Nat
  assetReserve : Nat
  depositFee : Nat
  withdrawFee : Nat
deriving DecidableEq, Repr

/-- `VerioIP` (verio_ip.rs:15). -/
structure VerioIP where
  base : ERC4626Standard
deriving DecidableEq, Repr

namespace ERC4626Standard
variable (p : ERC4626Standard)

/-- `apply_log` (standard.rs:148). -/
def applyLog (l : Log) : ERC4626Standard × Except Fault Unit :=
  match l.payload with
  | .event (.erc4626 (.deposit assets shares)) =>
    ({ p with
        vaultReserve := Fixed.wadd 256 p.vaultReserve shares
        assetReserve := Fixed.wadd 256 p.assetReserve assets }, .ok ())
  | .event (.erc4626 (.withdraw assets shares)) =>
    ({ p with
        vaultReserve := Fixed.wsub 256 p.vaultReserve shares
        assetReserve := Fixed.wsub 256 p.assetReserve assets }, .ok ())
  | .raw t err => if t = .erc4626Deposit ∨ t = .erc4626Withdraw then (p, .error (.error err)) else (p, .ok ())
  | _ => (p, .ok ())

end ERC4626Standard

namespace VerioIP
variable (p : VerioIP)

/-- `VerioIP::topics` (verio_ip.rs:128). -/
def topics : List Topic := [.erc4626Deposit, .erc4626Withdraw]

/-- `VerioIP::profitable_topics` (verio_ip.rs:135). -/
def profitableTopics : List Topic := [.erc4626Deposit, .erc4626Withdraw]

/-- `VerioIP::apply_log` (verio_ip.rs:108), which moves its base as the standard vault does. -/
def applyLog (l : Log) : VerioIP × Except Fault Unit :=
  let (base, result) := p.base.applyLog l
  (⟨base⟩, result)

end VerioIP

end EvmDexPool.ERC4626
