import EvmDexPool.Collector.EventPaths

/-!
# Reading the fees no event announces (`collector/fee_reader.rs`)

| here | there |
| --- | --- |
| `feeReadCandidates`       | `fee_read_candidates` |
| `needsReading`            | what `pools_needing_reads` asks of each pool |
| `FeeReadSchedule.nextRead` | `FeeReadSchedule::next_read` |
| `ReadPlan.plan`           | one address of `plan_reads` |
| `writeFee`                | one address of the `fee()` write-back of `read_fees` |
| `writeCurrentFee`         | one of the `currentFee()` write-back |

Times are in milliseconds. Sets of addresses are lists here, in an order that nothing depends on.
-/

namespace EvmDexPool

open V3

/-- `FULL_READ_INTERVAL` (fee_reader.rs:61). -/
def FULL_READ_INTERVAL : Nat := 30000

/-- `ALGEBRA_DYNAMIC_FEE_FLAG` (v3/pool.rs:73). -/
def ALGEBRA_DYNAMIC_FEE_FLAG : Nat := 0x80

/-- A log that may switch where an Algebra pool's fee comes from (fee_reader.rs:87). -/
def Log.reconfigures (l : Log) : Bool :=
  l.topic0 = some .integralPluginConfig ∨ l.topic0 = some .integralPlugin

/-- What an Algebra pool's plugin configuration says of its fee (fee_reader.rs:420). -/
def feeSourceOfConfig (config : Nat) : FeeSource :=
  if config &&& ALGEBRA_DYNAMIC_FEE_FLAG ≠ 0 then .readFee else .events

/-- `classify_fee_source` (v3/pool.rs:76). -/
def classifyFeeSource (poolType : V3PoolType) (algebraPluginConfig : Option Nat) (answersCurrentFee : Bool) : FeeSource :=
  match poolType with
  | .AlgebraV3 =>
    match algebraPluginConfig with
    | some config => feeSourceOfConfig config
    | none => .unknown
  | .RamsesCL => if answersCurrentFee then .readCurrentFee else .events
  | _ => .events

namespace PoolRegistry
variable {π : Type} [PoolInterface π] (r : PoolRegistry π)

/-- The pool at the address, if it is a V3 pool. -/
def getV3 (a : Address) : Option UniswapV3Pool := (r.getPool a).bind PoolInterface.asV3

/-- `with_v3` (fee_reader.rs:285). -/
def withV3 (a : Address) (f : UniswapV3Pool → UniswapV3Pool) : PoolRegistry π :=
  match r.getPool a with
  | some p => { r with byAddress := r.byAddress.insert a (PoolInterface.withV3 f p) }
  | none => r

/-- The type and the fee source of the V3 pool at an address. -/
def feeKind (a : Address) : Option (V3PoolType × FeeSource) :=
  (r.getV3 a).map fun v3 => (v3.poolType, v3.feeSource)

/-- Whether `pools_needing_reads` finds the pool (fee_reader.rs:114). -/
def needsReading (a : Address) : Bool := (r.getV3 a).any UniswapV3Pool.feeNeedsReading

/-- `get_dynamic_fee_addresses` (registry.rs:68). -/
def getDynamicFeeAddresses : List Address := r.dynamicFeeAddresses.keys

/-- One event of `fee_read_candidates`. -/
def feeReadCandidate (s : PoolRegistry π × List Address) (l : Log) : PoolRegistry π × List Address :=
  let r := if l.reconfigures then s.1.addDynamicFeeAddress l.address else s.1
  (r, if l.reconfigures ∨ r.isDynamicFeeAddress l.address then s.2.insert l.address else s.2)

/-- `fee_read_candidates` (fee_reader.rs:83). -/
def feeReadCandidates (events : List Log) : PoolRegistry π × List Address := events.foldl feeReadCandidate (r, [])

/-- The write-back of `fee()`, and of a plugin configuration that was read with it (fee_reader.rs:403-444).
A call that failed writes nothing. -/
def writeFee (a : Address) (fee config : Option Nat) : PoolRegistry π :=
  match fee, r.getV3 a with
  | some fee, some _ =>
    match config with
    | none => r.withV3 a fun v3 => { v3 with fee := fee }
    | some config =>
      let r := r.withV3 a fun v3 => { v3 with fee := fee, feeSource := feeSourceOfConfig config }
      match feeSourceOfConfig config with
      | .readFee => r.addDynamicFeeAddress a
      | .events => r.removeDynamicFeeAddress a
      | _ => r
  | _, _ => r

/-- The write-back of `currentFee()` (fee_reader.rs:446-480). -/
def writeCurrentFee (a : Address) (current : Option Nat) : PoolRegistry π :=
  match r.getV3 a, current with
  | some _, some fee => r.withV3 a fun v3 => { v3 with fee := fee, feeSource := .readCurrentFee }
  | some v3, none =>
    if v3.feeSource = .unknown then
      (r.withV3 a fun v3 => { v3 with feeSource := .events }).removeDynamicFeeAddress a
    else r
  | none, _ => r

end PoolRegistry

/-! ## When to read -/

structure FeeRead where
  addresses : List Address
  fullPass : Bool
deriving DecidableEq, Repr

structure FeeReadSchedule where
  queued : List Address
  lastFullRead : Option Nat
deriving DecidableEq, Repr

namespace FeeReadSchedule

/-- `FeeReadSchedule::default`. -/
def empty : FeeReadSchedule := ⟨[], none⟩

/-- `next_read` (fee_reader.rs:153). -/
def nextRead (s : FeeReadSchedule) (touched tracked : List Address) (now : Nat) (busy : Bool) :
    FeeReadSchedule × Option FeeRead :=
  let queued := s.queued ∪ touched
  if busy then ({ s with queued := queued }, none)
  else if s.lastFullRead.all (now - · ≥ FULL_READ_INTERVAL) then
    (⟨[], some now⟩, some ⟨queued ∪ tracked, true⟩)
  else if queued = [] then ({ s with queued := queued }, none)
  else ({ s with queued := [] }, some ⟨queued, false⟩)

/-- What is queued stays so or is read. -/
theorem mem_nextRead {s : FeeReadSchedule} (touched tracked : List Address) (now : Nat) (busy : Bool) {a : Address}
    (h : a ∈ s.queued) :
    a ∈ (s.nextRead touched tracked now busy).1.queued ∨
      ∃ read, (s.nextRead touched tracked now busy).2 = some read ∧ a ∈ read.addresses := by
  unfold nextRead
  have hq : a ∈ s.queued ∪ touched := List.mem_union_left h touched
  dsimp only
  split
  · exact .inl hq
  · split
    · exact .inr ⟨_, rfl, List.mem_union_left hq tracked⟩
    · split
      · exact .inl hq
      · exact .inr ⟨_, rfl, hq⟩

end FeeReadSchedule

/-! ## What to read -/

/-- `ReadPlan` (fee_reader.rs:297). -/
structure ReadPlan where
  wantFee : List Address
  wantConfig : List Address
  wantCurrentFee : List Address
deriving DecidableEq, Repr

namespace ReadPlan

def empty : ReadPlan := ⟨[], [], []⟩

/-- One address of `plan_reads` (fee_reader.rs:321-342). An Algebra pool that events keep current is planned
as an unclassified one: a stale write-back may have left it so. -/
def plan {π : Type} [PoolInterface π] (r : PoolRegistry π) (s : ReadPlan) (a : Address) : ReadPlan :=
  match r.getV3 a with
  | none => s
  | some v3 =>
    match v3.feeSource, v3.poolType with
    | .readFee, _ => { s with wantFee := s.wantFee ++ [a] }
    | .readCurrentFee, _ | .unknown, .RamsesCL => { s with wantCurrentFee := s.wantCurrentFee ++ [a] }
    | .unknown, .AlgebraV3 | .events, .AlgebraV3 =>
      { s with wantFee := s.wantFee ++ [a], wantConfig := s.wantConfig ++ [a] }
    | _, _ => s

/-- What a plan asks of an Algebra pool: `fee()`, unless its source were `currentFee()`. -/
theorem plan_frame (r : PoolRegistry Pool) (s : ReadPlan) (a : Address) :
    (∀ x ∈ s.wantFee, x ∈ (s.plan r a).wantFee) ∧
      (∀ x ∈ (s.plan r a).wantCurrentFee, x ∈ s.wantCurrentFee ∨
        x = a ∧ ∀ source, r.feeKind a = some (.AlgebraV3, source) → source = .readCurrentFee) ∧
      ∀ source, r.feeKind a = some (.AlgebraV3, source) → source ≠ .readCurrentFee → a ∈ (s.plan r a).wantFee := by
  unfold plan PoolRegistry.feeKind
  cases r.getV3 a with
  | none => simp +contextual
  | some v3 =>
    dsimp only
    rcases hs : v3.feeSource <;> rcases ht : v3.poolType <;> simp +contextual [hs, ht]

end ReadPlan

/-! ## What the writes do to a pool -/

namespace V3.UniswapV3Pool
variable {p : UniswapV3Pool}

theorem updateState_frame (now sqrtPriceX96 : Nat) (tick : Int) (liquidity : Nat) :
    (p.updateState now sqrtPriceX96 tick liquidity).1.feeSource = p.feeSource ∧
      (p.updateState now sqrtPriceX96 tick liquidity).1.poolType = p.poolType := by
  unfold updateState
  split
  · exact ⟨rfl, rfl⟩
  · split <;> exact ⟨rfl, rfl⟩

theorem updateTick_frame (index net : Int) (gross : Nat) :
    (p.updateTick index net gross).feeSource = p.feeSource ∧ (p.updateTick index net gross).poolType = p.poolType := by
  unfold updateTick
  split <;> exact ⟨rfl, rfl⟩

theorem mintTick_frame (index delta : Int) (amount : Nat) :
    (p.mintTick index delta amount).feeSource = p.feeSource ∧ (p.mintTick index delta amount).poolType = p.poolType := by
  unfold mintTick
  split
  · exact ⟨rfl, rfl⟩
  · exact updateTick_frame ..

theorem burnTick_frame {index delta : Int} {amount : Nat} {q : UniswapV3Pool} (h : p.burnTick index delta amount = some q) :
    q.feeSource = p.feeSource ∧ q.poolType = p.poolType := by
  unfold burnTick at h
  split at h
  · cases h
    split
    · exact updateTick_frame ..
    · exact ⟨rfl, rfl⟩
  · cases h

theorem applyMintEvent_frame (tickLower tickUpper : Int) (amount : Nat) :
    (p.applyMintEvent tickLower tickUpper amount).1.feeSource = p.feeSource ∧
      (p.applyMintEvent tickLower tickUpper amount).1.poolType = p.poolType := by
  unfold applyMintEvent
  obtain ⟨h1, h2⟩ := mintTick_frame (p := p) tickLower (Fixed.toSigned 128 amount) amount
  dsimp only
  generalize p.mintTick tickLower (Fixed.toSigned 128 amount) amount = q at h1 h2 ⊢
  obtain ⟨h3, h4⟩ := mintTick_frame (p := q) tickUpper (-Fixed.toSigned 128 amount) amount
  split
  · exact ⟨rfl, rfl⟩
  · split
    · exact ⟨h1, h2⟩
    · dsimp only
      split
      · exact ⟨h3.trans h1, h4.trans h2⟩
      · exact ⟨h3.trans h1, h4.trans h2⟩

theorem applyBurnEvent_frame (tickLower tickUpper : Int) (amount : Nat) :
    (p.applyBurnEvent tickLower tickUpper amount).1.feeSource = p.feeSource ∧
      (p.applyBurnEvent tickLower tickUpper amount).1.poolType = p.poolType := by
  unfold applyBurnEvent
  split
  · exact ⟨rfl, rfl⟩
  split
  · exact ⟨rfl, rfl⟩
  split
  · exact ⟨rfl, rfl⟩
  dsimp only
  split
  · exact ⟨rfl, rfl⟩
  · next q hq =>
    obtain ⟨h1, h2⟩ := burnTick_frame hq
    split
    · exact ⟨h1, h2⟩
    · next q2 hq2 =>
      obtain ⟨h3, h4⟩ := burnTick_frame hq2
      dsimp only
      split
      · exact ⟨h3.trans h1, h4.trans h2⟩
      · exact ⟨h3.trans h1, h4.trans h2⟩

theorem applyEvent_frame (now : Nat) (e : V3Event) :
    (p.applyEvent now e).1.feeSource =
        (if e.topic = .integralPluginConfig ∨ e.topic = .integralPlugin then .unknown else p.feeSource) ∧
      (p.applyEvent now e).1.poolType = p.poolType := by
  cases e with
  | swap | pancakeSwap | algebraSwap => exact updateState_frame ..
  | mint | ramsesMint => exact applyMintEvent_frame ..
  | burn | algebraBurn => exact applyBurnEvent_frame ..
  | feeAdjustment =>
    unfold applyEvent
    dsimp only
    split <;> exact ⟨rfl, rfl⟩
  | fee =>
    unfold applyEvent
    dsimp only
    split <;> exact ⟨rfl, rfl⟩
  | pluginConfig | plugin | swapFee => exact ⟨rfl, rfl⟩

/-- **A log resets the fee source or leaves it**: it resets it exactly when it may have switched it. -/
theorem applyLog_frame (now : Nat) (l : Log) :
    (p.applyLog now l).1.feeSource = (if l.reconfigures then .unknown else p.feeSource) ∧
      (p.applyLog now l).1.poolType = p.poolType := by
  unfold applyLog Log.reconfigures Log.topic0
  cases l.payload with
  | event e =>
    cases e with
    | v3 e => simpa [Event.topic] using applyEvent_frame (p := p) now e
    | v2 e => cases e <;> exact ⟨rfl, rfl⟩
    | erc4626 e => cases e <;> exact ⟨rfl, rfl⟩
    | lb e => cases e <;> exact ⟨rfl, rfl⟩
  | raw t err =>
    dsimp only
    by_cases h : t = .integralPluginConfig ∨ t = .integralPlugin
    · rw [if_pos h]
      simp [h]
    · rw [if_neg h]
      split <;> simp [h]
  | anonymous => exact ⟨rfl, rfl⟩

end V3.UniswapV3Pool

/-! ## What the writes do to the registry -/

namespace PoolRegistry
variable {r : PoolRegistry Pool}

/-- A step on the pool at `b` that does `g` to what a V3 pool is. -/
theorem feeKind_onPool {f : Pool → Pool × Except Fault Unit} {g : V3PoolType × FeeSource → V3PoolType × FeeSource}
    (h : ∀ p, (f p).1.asV3.map (fun v3 => (v3.poolType, v3.feeSource)) =
      (p.asV3.map fun v3 => (v3.poolType, v3.feeSource)).map g) (a b : Address) :
    (onPool f b r).1.feeKind a = if a = b then (r.feeKind a).map g else r.feeKind a := by
  unfold onPool
  cases hp : r.getPool b with
  | none =>
    by_cases hab : a = b
    · subst hab
      unfold feeKind getV3
      simp [hp]
    · rw [if_neg hab]
  | some p =>
    unfold feeKind getV3 getPool at *
    dsimp only
    rw [Ranges.lookup_insert]
    by_cases hab : a = b
    · subst hab
      rw [if_pos rfl, if_pos rfl, hp]
      exact h p
    · rw [if_neg hab, if_neg hab]

theorem onPool_tracked (f : Pool → Pool × Except Fault Unit) (a b : Address) :
    (onPool f b r).1.isDynamicFeeAddress a = r.isDynamicFeeAddress a := by
  unfold onPool
  split <;> rfl

/-- What a log makes of a pool. -/
def reclassify (l : Log) (kind : V3PoolType × FeeSource) : V3PoolType × FeeSource :=
  (kind.1, if l.reconfigures then .unknown else kind.2)

theorem kind_applyLog (now : Nat) (l : Log) (p : Pool) :
    (PoolInterface.applyLog now l p).1.asV3.map (fun v3 => (v3.poolType, v3.feeSource)) =
      (p.asV3.map fun v3 => (v3.poolType, v3.feeSource)).map (reclassify l) := by
  cases p with
  | v3 p =>
    obtain ⟨h1, h2⟩ := UniswapV3Pool.applyLog_frame (p := p) now l
    change some ((p.applyLog now l).1.poolType, (p.applyLog now l).1.feeSource) = _
    rw [h1, h2]
    rfl
  | _ => rfl

theorem feeKind_applyOrWarn (clock : Log → Nat) (l : Log) (a b : Address) :
    (onPool (applyOrWarn clock l) b r).1.feeKind a = if a = b then (r.feeKind a).map (reclassify l) else r.feeKind a :=
  feeKind_onPool (fun p => by rw [applyOrWarn_fst]; exact kind_applyLog ..) a b

theorem feeKind_applyOrReport (clock : Log → Nat) (l : Log) (a b : Address) :
    (onPool (applyOrReport clock l) b r).1.feeKind a = if a = b then (r.feeKind a).map (reclassify l) else r.feeKind a :=
  feeKind_onPool (fun p => by rw [applyOrReport_fst]; exact kind_applyLog ..) a b

theorem withV3_eq (f : UniswapV3Pool → UniswapV3Pool) (b : Address) :
    r.withV3 b f = (onPool (fun p => (PoolInterface.withV3 f p, .ok ())) b r).1 := by
  unfold withV3 onPool
  cases r.getPool b <;> rfl

/-- A write that changes the source by `g`, and no type. -/
theorem feeKind_withV3 {f : UniswapV3Pool → UniswapV3Pool} {g : FeeSource → FeeSource}
    (h : ∀ p, (f p).poolType = p.poolType ∧ (f p).feeSource = g p.feeSource) (a b : Address) :
    (r.withV3 b f).feeKind a = if a = b then (r.feeKind a).map (fun kind => (kind.1, g kind.2)) else r.feeKind a := by
  rw [withV3_eq]
  refine feeKind_onPool (fun p => ?_) a b
  cases p with
  | v3 p =>
    change some ((f p).poolType, (f p).feeSource) = _
    rw [(h p).1, (h p).2]
    rfl
  | _ => rfl

theorem withV3_tracked (f : UniswapV3Pool → UniswapV3Pool) (a b : Address) :
    (r.withV3 b f).isDynamicFeeAddress a = r.isDynamicFeeAddress a := by
  rw [withV3_eq]
  exact onPool_tracked ..

theorem isDynamicFeeAddress_add (a b : Address) :
    (r.addDynamicFeeAddress b).isDynamicFeeAddress a = true ↔ a = b ∨ r.isDynamicFeeAddress a = true := by
  unfold isDynamicFeeAddress addDynamicFeeAddress
  rw [decide_eq_true_iff, decide_eq_true_iff, Std.ExtTreeMap.mem_insert, compare_eq_iff_eq]
  exact or_congr_left eq_comm

theorem isDynamicFeeAddress_remove {a b : Address} (h : a ≠ b) :
    (r.removeDynamicFeeAddress b).isDynamicFeeAddress a = r.isDynamicFeeAddress a := by
  unfold isDynamicFeeAddress removeDynamicFeeAddress
  rw [decide_eq_decide, Std.ExtTreeMap.mem_erase, Ne, compare_eq_iff_eq]
  exact and_iff_right (Ne.symm h)

theorem feeReadCandidate_frame (s : PoolRegistry Pool × List Address) (l : Log) (a : Address) :
    (feeReadCandidate s l).1.feeKind a = s.1.feeKind a ∧
      (s.1.isDynamicFeeAddress a = true → (feeReadCandidate s l).1.isDynamicFeeAddress a = true) := by
  unfold feeReadCandidate
  dsimp only
  split
  · exact ⟨rfl, fun h => (isDynamicFeeAddress_add ..).2 (.inr h)⟩
  · exact ⟨rfl, id⟩

/-- Finding a batch's candidates only tracks pools. -/
theorem feeReadCandidates_frame (events : List Log) (r : PoolRegistry Pool) (a : Address) :
    (r.feeReadCandidates events).1.feeKind a = r.feeKind a ∧
      (r.isDynamicFeeAddress a = true → (r.feeReadCandidates events).1.isDynamicFeeAddress a = true) := by
  unfold feeReadCandidates
  generalize hs : (r, ([] : List Address)) = s
  have hr : r = s.1 := by rw [← hs]
  rw [hr]
  clear hs hr
  induction events generalizing s with
  | nil => exact ⟨rfl, id⟩
  | cons l ls ih =>
    obtain ⟨hk, ht⟩ := feeReadCandidate_frame s l a
    obtain ⟨h1, h2⟩ := ih (feeReadCandidate s l)
    exact ⟨h1.trans hk, fun h => h2 (ht h)⟩

theorem addDynamicFeeAddresses_frame (found : List Address) (r : PoolRegistry Pool) (a : Address) :
    (found.foldl addDynamicFeeAddress r).feeKind a = r.feeKind a ∧
      (r.isDynamicFeeAddress a = true → (found.foldl addDynamicFeeAddress r).isDynamicFeeAddress a = true) := by
  induction found generalizing r with
  | nil => exact ⟨rfl, id⟩
  | cons b found ih =>
    obtain ⟨h1, h2⟩ := ih (r.addDynamicFeeAddress b)
    exact ⟨h1, fun h => h2 ((isDynamicFeeAddress_add ..).2 (.inr h))⟩

/-- What writing a `fee()` answer back makes of the pools. -/
theorem feeKind_writeFee (fee config : Option Nat) (a b : Address) :
    (r.writeFee b fee config).feeKind a =
      if a = b ∧ fee.isSome then (r.feeKind a).map (fun kind => (kind.1, config.elim kind.2 feeSourceOfConfig))
      else r.feeKind a := by
  have hnone : r.getV3 b = none → a = b → r.feeKind a = none := by
    rintro h rfl
    unfold feeKind
    rw [h]
    rfl
  unfold writeFee
  cases fee with
  | none => simp
  | some fee =>
    cases hb : r.getV3 b with
    | none =>
      by_cases hab : a = b
      · rw [hnone hb hab]
        simp
      · simp [hab]
    | some v3 =>
      cases config with
      | none =>
        dsimp only
        rw [feeKind_withV3 (f := fun v3 => { v3 with fee := fee }) (g := id) fun p => ⟨rfl, rfl⟩]
        simp
      | some config =>
        have hw := feeKind_withV3 (r := r) (f := fun v3 => { v3 with fee := fee, feeSource := feeSourceOfConfig config })
          (g := fun _ => feeSourceOfConfig config) (fun p => ⟨rfl, rfl⟩) a b
        have hkind : ∀ r : PoolRegistry Pool, (match feeSourceOfConfig config with
            | .readFee => r.addDynamicFeeAddress b
            | .events => r.removeDynamicFeeAddress b
            | _ => r).feeKind a = r.feeKind a := by
          intro r
          split <;> rfl
        dsimp only
        rw [hkind, hw]
        simp

/-- Another pool's tracking is left alone. -/
theorem writeFee_tracked {a b : Address} (h : a ≠ b) (fee config : Option Nat) :
    (r.writeFee b fee config).isDynamicFeeAddress a = r.isDynamicFeeAddress a := by
  unfold writeFee
  split
  · split
    · exact withV3_tracked ..
    · dsimp only
      split
      · rw [Bool.eq_iff_iff, isDynamicFeeAddress_add, withV3_tracked]
        exact or_iff_right h
      · rw [isDynamicFeeAddress_remove h, withV3_tracked]
      · exact withV3_tracked ..
  · rfl

/-- A pool that is not found to be kept current by events stays tracked, and one whose fee is read is tracked. -/
theorem writeFee_tracked_self (a : Address) (fee config : Option Nat)
    (h : ∀ x y, fee = some x → config = some y → feeSourceOfConfig y ≠ .events) :
    (r.isDynamicFeeAddress a = true → (r.writeFee a fee config).isDynamicFeeAddress a = true) ∧
      (fee.isSome → config.isSome → (r.feeKind a).isSome → (r.writeFee a fee config).isDynamicFeeAddress a = true) := by
  unfold writeFee
  cases fee with
  | none => simp
  | some fee =>
    cases hv : r.getV3 a with
    | none =>
      unfold feeKind
      simp [hv]
    | some v3 =>
      cases config with
      | none =>
        dsimp only
        rw [withV3_tracked]
        simp
      | some config =>
        have hne := h fee config rfl rfl
        have hread : feeSourceOfConfig config = .readFee := by
          unfold feeSourceOfConfig at hne ⊢
          split
          · rfl
          · next hz => exact absurd (if_neg hz) hne
        dsimp only
        rw [hread]
        exact ⟨fun _ => (isDynamicFeeAddress_add ..).2 (.inl rfl), fun _ _ _ => (isDynamicFeeAddress_add ..).2 (.inl rfl)⟩

/-- Writing a `currentFee()` answer back changes that pool alone, and no type. -/
theorem writeCurrentFee_frame (current : Option Nat) (a b : Address) :
    ((r.writeCurrentFee b current).feeKind a).map Prod.fst = (r.feeKind a).map Prod.fst ∧
      (a ≠ b → (r.writeCurrentFee b current).feeKind a = r.feeKind a ∧
        (r.writeCurrentFee b current).isDynamicFeeAddress a = r.isDynamicFeeAddress a) := by
  have hwrite : ∀ (f : UniswapV3Pool → UniswapV3Pool) (g : FeeSource → FeeSource),
      (∀ p, (f p).poolType = p.poolType ∧ (f p).feeSource = g p.feeSource) →
      ((r.withV3 b f).feeKind a).map Prod.fst = (r.feeKind a).map Prod.fst ∧
        (a ≠ b → (r.withV3 b f).feeKind a = r.feeKind a) := by
    intro f g h
    rw [feeKind_withV3 h]
    refine ⟨?_, fun hab => if_neg hab⟩
    split
    · rw [Option.map_map]
      rfl
    · rfl
  unfold writeCurrentFee
  split
  · obtain ⟨h1, h2⟩ := hwrite (fun v3 => { v3 with fee := _, feeSource := .readCurrentFee }) (fun _ => .readCurrentFee) fun p => ⟨rfl, rfl⟩
    exact ⟨h1, fun hab => ⟨h2 hab, withV3_tracked ..⟩⟩
  · split
    · obtain ⟨h1, h2⟩ := hwrite (fun v3 => { v3 with feeSource := .events }) (fun _ => .events) fun p => ⟨rfl, rfl⟩
      exact ⟨h1, fun hab => ⟨h2 hab, by rw [isDynamicFeeAddress_remove hab, withV3_tracked]⟩⟩
    · exact ⟨rfl, fun _ => ⟨rfl, rfl⟩⟩
  · exact ⟨rfl, fun _ => ⟨rfl, rfl⟩⟩

end PoolRegistry

end EvmDexPool
