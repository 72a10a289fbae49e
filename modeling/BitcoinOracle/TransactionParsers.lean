import BitcoinOracle.ListReaders

/-! # The parsers

`parse-tx` and `parse-wtx` accept exactly the serializations of transactions within
their limits, with lengths of any width (`parseTx_eq_ok_iff`, `parseWtx_eq_ok_iff`).
`parse-tx` never aborts, `parse-wtx` does at an overfull witness.
`get-reversed-segwit-txid` knows no error at all: it aborts at every buffer that is
not laid out as a segwit transaction (`droppedTx_eq_ok_iff`).
-/
namespace BitcoinOracle.ClarityBitcoin
open Clarity Encoding

/-- A buffer that `clarity-bitcoin` can be called with, and much more. -/
abbrev Addressable (tx : Bytes) : Prop := tx.length < 2 ^ 64

section Whole
variable {α : Type} {E : α → Bytes → Prop} {A : Bytes → Prop} {read : Ctx → Result (Parsed α)}
  {tx : Bytes}

/-- A reader and the check that nothing is left over. -/
def whole (read : Ctx → Result (Parsed α)) (tx : Bytes) : Result α := do
  let parsed ← read ⟨tx, 0⟩
  Result.asserts (tx.length = parsed.ctx.index) errLeftoverData
  pure parsed.value

theorem Reads.whole_eq_ok_iff (h : Reads Parsed.mk E read) (htx : Addressable tx) {v : α} :
    whole read tx = .ok v ↔ E v tx := by
  unfold whole
  rw [Result.bind_eq_ok]
  constructor
  · rintro ⟨p, hp, hrest⟩
    obtain ⟨w, b, hw, hocc, rfl⟩ := (h tx 0 htx (Nat.zero_le _) p).mp hp
    obtain ⟨_, hlen, hv⟩ := Result.bind_eq_ok.mp hrest
    have hall : b = tx := by
      refine hocc.unique (occurs_self tx) ?_
      rw [Result.asserts_eq_ok.mp hlen]
      exact (Nat.zero_add _).symm
    obtain rfl : w = v := Result.ok.inj hv
    rwa [← hall]
  · intro hv
    refine ⟨_, (h tx 0 htx (Nat.zero_le _) _).mpr ⟨v, tx, hv, occurs_self tx, rfl⟩, ?_⟩
    refine Result.bind_eq_ok.mpr ⟨(), Result.asserts_eq_ok.mpr ?_, rfl⟩
    exact (Nat.zero_add _).symm

theorem AbortsOn.whole_abort_iff (h : AbortsOn A read) (htx : Addressable tx) :
    (∃ x, whole read tx = .abort x) ↔ ∃ b rest, A b ∧ tx = b ++ rest := by
  have hread : (∃ x, whole read tx = .abort x) ↔ ∃ x, read ⟨tx, 0⟩ = .abort x := by
    unfold whole
    cases read ⟨tx, 0⟩ with
    | ok p =>
        rw [Result.ok_bind]
        unfold Result.asserts
        by_cases hlen : tx.length = p.ctx.index
        · rw [if_pos hlen]
          simp
        · rw [if_neg hlen]
          simp
    | err e => simp
    | abort y => simp
  rw [hread, h tx 0 htx (Nat.zero_le _)]
  constructor
  · rintro ⟨b, hb, pre, rest, hpre, rfl⟩
    obtain rfl := List.length_eq_zero_iff.mp hpre
    exact ⟨b, rest, hb, rfl⟩
  · rintro ⟨b, rest, hb, rfl⟩
    exact ⟨b, hb, occurs_start b rest⟩

end Whole

/-! ## Legacy transactions -/

/-- `parse-tx` up to the check of the length. -/
def readLegacyTx (ctx : Ctx) : Result (Parsed LegacyTx) := do
  let parsedVersion ← readUint32 ctx
  let parsedTxins ← readTxins parsedVersion.ctx
  let parsedTxouts ← readTxouts parsedTxins.ctx
  let parsedLocktime ← readUint32 parsedTxouts.ctx
  pure ⟨⟨parsedVersion.value, parsedTxins.txins, parsedTxouts.txouts, parsedLocktime.value⟩,
    parsedLocktime.ctx⟩

theorem parseTx_eq (tx : Bytes) : parseTx tx = whole readLegacyTx tx := by
  unfold parseTx whole readLegacyTx
  simp only [bind_assoc, pure_bind]

theorem readLegacyTx_reads : Reads Parsed.mk LegacyTx.Encodes readLegacyTx := by
  have hbind : Reads Parsed.mk
      (Then (fun v b => v < 2 ^ 32 ∧ b = bytesLe 4 v) fun version =>
        Then (EncodesShort TxIn.Encodes) fun ins => Then (EncodesShort TxOut.Encodes) fun outs =>
          Then (fun v b => v < 2 ^ 32 ∧ b = bytesLe 4 v) fun locktime t b =>
            t = (⟨version, ins, outs, locktime⟩ : LegacyTx) ∧ b = [])
      readLegacyTx := by
    refine Reads.bind readUint32_reads fun version _ _ => ?_
    dsimp only
    refine Reads.bind readTxins_reads fun ins _ _ => ?_
    dsimp only
    refine Reads.bind readTxouts_reads fun outs _ _ => ?_
    dsimp only
    refine Reads.bind readUint32_reads fun locktime _ _ => ?_
    exact .ret (⟨version, ins, outs, locktime⟩ : LegacyTx)
  refine hbind.of_iff fun t b => ⟨?_, ?_⟩
  · rintro ⟨version, _, _, ⟨hversion, rfl⟩, ⟨ins, insBytes, _, ⟨hins, hinsBytes⟩, ⟨outs, outsBytes, _,
      ⟨houts, houtsBytes⟩, ⟨locktime, _, _, ⟨hlocktime, rfl⟩, ⟨rfl, rfl⟩, rfl⟩, rfl⟩, rfl⟩, rfl⟩
    refine ⟨⟨hversion, hins, ?_, houts, ?_, hlocktime⟩, insBytes, outsBytes, hinsBytes, houtsBytes,
      by rw [List.append_nil]⟩
    · exact hinsBytes.forall_mem fun _ _ hi => hi.1
    · exact houtsBytes.forall_mem fun _ _ ho => ho.1
  · rintro ⟨hfits, insBytes, outsBytes, hinsBytes, houtsBytes, rfl⟩
    exact ⟨_, _, _, ⟨hfits.version, rfl⟩, ⟨_, _, _, ⟨hfits.ins_length, hinsBytes⟩, ⟨_, _, _,
      ⟨hfits.outs_length, houtsBytes⟩, ⟨_, _, _, ⟨hfits.locktime, rfl⟩, ⟨rfl, rfl⟩, rfl⟩, rfl⟩, rfl⟩,
      by rw [List.append_nil]⟩

theorem readLegacyTx_total : Total readLegacyTx := by
  refine Total.bind readUint32_total readUint32_reads fun version _ _ => ?_
  dsimp only
  refine Total.bind readTxins_total readTxins_reads fun ins _ _ => ?_
  dsimp only
  refine Total.bind readTxouts_total readTxouts_reads fun outs _ _ => ?_
  dsimp only
  refine Total.bind readUint32_total readUint32_reads fun locktime _ _ => ?_
  exact .ret _

/-- **What `parse-tx` accepts.** -/
theorem parseTx_eq_ok_iff {tx : Bytes} (htx : Addressable tx) {t : LegacyTx} :
    parseTx tx = .ok t ↔ t.Encodes tx := by
  rw [parseTx_eq]
  exact readLegacyTx_reads.whole_eq_ok_iff htx

theorem parseTx_ne_abort {tx : Bytes} (htx : Addressable tx) (x : RuntimeError) :
    parseTx tx ≠ .abort x := by
  intro hx
  rw [parseTx_eq] at hx
  obtain ⟨_, _, hno, -⟩ := (AbortsOn.whole_abort_iff readLegacyTx_total htx).mp ⟨x, hx⟩
  exact hno

/-! ## Transactions with witnesses -/

/-- `parse-wtx` behind the last field it reads, up to the check of the length. -/
def segwitTail (version marker flag : Nat) (ins : List TxIn) (outs : List TxOut)
    (witnesses : List (List Bytes)) (locktime : Nat) (ctx : Ctx) : Result (Parsed WitnessTx) := do
  Result.asserts (marker = 0 ∧ flag = 1) errNotSegwitTransaction
  pure ⟨⟨version, marker, flag, ins, outs, witnesses, locktime⟩, ctx⟩

/-- `parse-wtx` up to the check of the length. -/
def readWitnessTx (ctx : Ctx) : Result (Parsed WitnessTx) := do
  let parsedVersion ← readUint32 ctx
  let parsedSegwitMarker ← readUint8 parsedVersion.ctx
  let parsedSegwitVersion ← readUint8 parsedSegwitMarker.ctx
  let parsedTxins ← readTxins parsedSegwitVersion.ctx
  let parsedTxouts ← readTxouts parsedTxins.ctx
  let parsedWitnesses ← readWitnesses parsedTxouts.ctx parsedTxins.txins.length
  let parsedLocktime ← readUint32 parsedWitnesses.ctx
  segwitTail parsedVersion.value parsedSegwitMarker.value parsedSegwitVersion.value
    parsedTxins.txins parsedTxouts.txouts parsedWitnesses.witnesses parsedLocktime.value
    parsedLocktime.ctx

theorem parseWtx_eq (tx : Bytes) : parseWtx tx = whole readWitnessTx tx := by
  unfold parseWtx whole readWitnessTx segwitTail
  simp only [bind_assoc, pure_bind]

theorem segwitTail_eq {version marker flag : Nat} {ins : List TxIn} {outs : List TxOut}
    {witnesses : List (List Bytes)} {locktime : Nat} :
    segwitTail version marker flag ins outs witnesses locktime = fun ctx =>
      if marker = 0 ∧ flag = 1 then
        .ok (Parsed.mk ⟨version, marker, flag, ins, outs, witnesses, locktime⟩ ctx)
      else .err errNotSegwitTransaction := by
  funext ctx
  unfold segwitTail Result.asserts
  by_cases h : marker = 0 ∧ flag = 1
  · rw [if_pos h, if_pos h]
    rfl
  · rw [if_neg h, if_neg h]
    rfl

theorem readWitnessTx_reads : Reads Parsed.mk WitnessTx.Encodes readWitnessTx := by
  have hbind : Reads Parsed.mk
      (Then (fun v b => v < 2 ^ 32 ∧ b = bytesLe 4 v) fun version =>
        Then (fun v b => v < 2 ^ 8 ∧ b = bytesLe 1 v) fun marker =>
          Then (fun v b => v < 2 ^ 8 ∧ b = bytesLe 1 v) fun flag =>
            Then (EncodesShort TxIn.Encodes) fun ins => Then (EncodesShort TxOut.Encodes) fun outs =>
              Then (fun ws b => ws.length = ins.length ∧ Seq EncodesWitness ws b) fun witnesses =>
                Then (fun v b => v < 2 ^ 32 ∧ b = bytesLe 4 v) fun locktime t b =>
                  (marker = 0 ∧ flag = 1) ∧
                    t = (⟨version, marker, flag, ins, outs, witnesses, locktime⟩ : WitnessTx) ∧
                    b = [])
      readWitnessTx := by
    refine Reads.bind readUint32_reads fun version _ _ => ?_
    dsimp only
    refine Reads.bind readUint8_reads fun marker _ _ => ?_
    dsimp only
    refine Reads.bind readUint8_reads fun flag _ _ => ?_
    dsimp only
    refine Reads.bind readTxins_reads fun ins _ hins => ?_
    dsimp only
    refine Reads.bind readTxouts_reads fun outs _ _ => ?_
    dsimp only
    refine Reads.bind (readWitnesses_reads hins.1) fun witnesses _ _ => ?_
    dsimp only [witnessesState]
    refine Reads.bind readUint32_reads fun locktime _ _ => ?_
    show Reads _ _ (segwitTail version marker flag ins outs witnesses locktime)
    rw [segwitTail_eq]
    exact .guarded (⟨version, marker, flag, ins, outs, witnesses, locktime⟩ : WitnessTx) _
  refine hbind.of_iff fun t b => ⟨?_, ?_⟩
  · rintro ⟨version, _, _, ⟨hversion, rfl⟩, ⟨marker, _, _, ⟨-, rfl⟩, ⟨flag, _, _, ⟨-, rfl⟩, ⟨ins,
      insBytes, _, ⟨hins, hinsBytes⟩, ⟨outs, outsBytes, _, ⟨houts, houtsBytes⟩, ⟨witnesses,
      witnessesBytes, _, ⟨hwitnesses, hwitnessesBytes⟩, ⟨locktime, _, _, ⟨hlocktime, rfl⟩,
      ⟨⟨hmarker, hflag⟩, rfl, rfl⟩, rfl⟩, rfl⟩, rfl⟩, rfl⟩, rfl⟩, rfl⟩, rfl⟩
    refine ⟨⟨hversion, hmarker, hflag, hins, ?_, houts, ?_, hwitnesses, ?_, hlocktime⟩, insBytes,
      outsBytes, witnessesBytes, hinsBytes, houtsBytes, hwitnessesBytes, by rw [List.append_nil]⟩
    · exact hinsBytes.forall_mem fun _ _ hi => hi.1
    · exact houtsBytes.forall_mem fun _ _ ho => ho.1
    · refine hwitnessesBytes.forall_mem fun w _ hw => ⟨hw.1, ?_⟩
      exact hw.2.forall_mem fun _ _ hitem => hitem.1
  · rintro ⟨hfits, insBytes, outsBytes, witnessesBytes, hinsBytes, houtsBytes, hwitnessesBytes, rfl⟩
    have hmarker : t.segwitMarker < 2 ^ 8 := by
      rw [hfits.segwitMarker]
      decide
    have hflag : t.segwitVersion < 2 ^ 8 := by
      rw [hfits.segwitVersion]
      decide
    exact ⟨_, _, _, ⟨hfits.version, rfl⟩, ⟨_, _, _, ⟨hmarker, rfl⟩, ⟨_, _, _, ⟨hflag, rfl⟩, ⟨_, _, _,
      ⟨hfits.ins_length, hinsBytes⟩, ⟨_, _, _, ⟨hfits.outs_length, houtsBytes⟩, ⟨_, _, _,
      ⟨hfits.witnesses_length, hwitnessesBytes⟩, ⟨_, _, _, ⟨hfits.locktime, rfl⟩,
      ⟨⟨hfits.segwitMarker, hfits.segwitVersion⟩, rfl, rfl⟩, rfl⟩, rfl⟩, rfl⟩, rfl⟩, rfl⟩, rfl⟩,
      by rw [List.append_nil]⟩

/-- **What `parse-wtx` accepts.** -/
theorem parseWtx_eq_ok_iff {tx : Bytes} (htx : Addressable tx) {t : WitnessTx} :
    parseWtx tx = .ok t ↔ t.Encodes tx := by
  rw [parseWtx_eq]
  exact readWitnessTx_reads.whole_eq_ok_iff htx

/-- A segwit transaction whose next witness, with fewer than there are inputs read,
announces more than 62 items. -/
def OverfullTx (tx : Bytes) : Prop :=
  ∃ head ins insBytes outs outsBytes ws wsBytes length rest,
    head.length = 6 ∧ EncodesShort TxIn.Encodes ins insBytes ∧
      EncodesShort TxOut.Encodes outs outsBytes ∧ ws.length < ins.length ∧
      Seq EncodesWitness ws wsBytes ∧ Overfull length ∧
      tx = head ++ (insBytes ++ (outsBytes ++ (wsBytes ++ (length ++ rest))))

/-- A string of a known length is the string of a number. -/
theorem exists_bytesLe {n : Nat} {b : Bytes} (h : b.length = n) :
    ∃ v, v < 256 ^ n ∧ b = bytesLe n v := by
  subst h
  exact ⟨buffToUintLe b, buffToUintLe_lt b, (bytesLe_buffToUintLe b).symm⟩

theorem readWitnessTx_aborts : AbortsOn (fun b => ∃ version marker flag ins insBytes outs outsBytes
    ws wsBytes length, version < 2 ^ 32 ∧ marker < 2 ^ 8 ∧ flag < 2 ^ 8 ∧
      EncodesShort TxIn.Encodes ins insBytes ∧ EncodesShort TxOut.Encodes outs outsBytes ∧
      ws.length < ins.length ∧ Seq EncodesWitness ws wsBytes ∧ Overfull length ∧
      b = bytesLe 4 version ++ (bytesLe 1 marker ++ (bytesLe 1 flag ++
        (insBytes ++ (outsBytes ++ (wsBytes ++ length)))))) readWitnessTx := by
  have hbind : AbortsOn (fun b => ∃ version b₁ b₂, (version < 2 ^ 32 ∧ b₁ = bytesLe 4 version) ∧
      (∃ marker b₃ b₄, (marker < 2 ^ 8 ∧ b₃ = bytesLe 1 marker) ∧
        (∃ flag b₅ b₆, (flag < 2 ^ 8 ∧ b₅ = bytesLe 1 flag) ∧
          (∃ ins insBytes b₇, EncodesShort TxIn.Encodes ins insBytes ∧
            (∃ outs outsBytes b₈, EncodesShort TxOut.Encodes outs outsBytes ∧
              (∃ ws wsBytes length, ws.length < ins.length ∧ Seq EncodesWitness ws wsBytes ∧
                Overfull length ∧ b₈ = wsBytes ++ length) ∧ b₇ = outsBytes ++ b₈) ∧
            b₆ = insBytes ++ b₇) ∧ b₄ = b₅ ++ b₆) ∧ b₂ = b₃ ++ b₄) ∧ b = b₁ ++ b₂)
      readWitnessTx := by
    refine AbortsOn.after readUint32_total readUint32_reads fun version _ _ => ?_
    dsimp only
    refine AbortsOn.after readUint8_total readUint8_reads fun marker _ _ => ?_
    dsimp only
    refine AbortsOn.after readUint8_total readUint8_reads fun flag _ _ => ?_
    dsimp only
    refine AbortsOn.after readTxins_total readTxins_reads fun ins _ hins => ?_
    dsimp only
    refine AbortsOn.after readTxouts_total readTxouts_reads fun outs _ _ => ?_
    dsimp only
    refine AbortsOn.before (readWitnesses_aborts hins.1) (readWitnesses_reads hins.1)
      fun witnesses _ _ => ?_
    dsimp only [witnessesState]
    refine Total.bind readUint32_total readUint32_reads fun locktime _ _ => ?_
    show Total (segwitTail version marker flag ins outs witnesses locktime)
    rw [segwitTail_eq]
    exact .guarded _ _
  refine hbind.of_iff fun b => ⟨?_, ?_⟩
  · rintro ⟨version, _, _, ⟨hversion, rfl⟩, ⟨marker, _, _, ⟨hmarker, rfl⟩, ⟨flag, _, _,
      ⟨hflag, rfl⟩, ⟨ins, insBytes, _, hins, ⟨outs, outsBytes, _, houts, ⟨ws, wsBytes, length, hlen,
      hws, hlength, rfl⟩, rfl⟩, rfl⟩, rfl⟩, rfl⟩, rfl⟩
    exact ⟨version, marker, flag, ins, insBytes, outs, outsBytes, ws, wsBytes, length, hversion,
      hmarker, hflag, hins, houts, hlen, hws, hlength, rfl⟩
  · rintro ⟨version, marker, flag, ins, insBytes, outs, outsBytes, ws, wsBytes, length, hversion,
      hmarker, hflag, hins, houts, hlen, hws, hlength, rfl⟩
    exact ⟨version, _, _, ⟨hversion, rfl⟩, ⟨marker, _, _, ⟨hmarker, rfl⟩, ⟨flag, _, _,
      ⟨hflag, rfl⟩, ⟨ins, insBytes, _, hins, ⟨outs, outsBytes, _, houts, ⟨ws, wsBytes, length, hlen,
      hws, hlength, rfl⟩, rfl⟩, rfl⟩, rfl⟩, rfl⟩, rfl⟩

/-- **When `parse-wtx` aborts.** -/
theorem parseWtx_abort_iff {tx : Bytes} (htx : Addressable tx) :
    (∃ x, parseWtx tx = .abort x) ↔ OverfullTx tx := by
  rw [parseWtx_eq, readWitnessTx_aborts.whole_abort_iff htx]
  constructor
  · rintro ⟨_, rest, ⟨version, marker, flag, ins, insBytes, outs, outsBytes, ws, wsBytes, length, -,
      -, -, hins, houts, hlen, hws, hlength, rfl⟩, rfl⟩
    refine ⟨bytesLe 4 version ++ (bytesLe 1 marker ++ bytesLe 1 flag), ins, insBytes, outs,
      outsBytes, ws, wsBytes, length, rest, ?_, hins, houts, hlen, hws, hlength, ?_⟩
    · simp only [List.length_append, bytesLe_length]
    · simp only [List.append_assoc]
  · rintro ⟨head, ins, insBytes, outs, outsBytes, ws, wsBytes, length, rest, hhead, hins, houts,
      hlen, hws, hlength, rfl⟩
    have hversion : (head.take 4).length = 4 := by
      rw [List.length_take]
      omega
    have hmarker : ((head.drop 4).take 1).length = 1 := by
      rw [List.length_take, List.length_drop]
      omega
    have hflag : (head.drop 5).length = 1 := by
      rw [List.length_drop]
      omega
    obtain ⟨version, hversion, heq₁⟩ := exists_bytesLe hversion
    obtain ⟨marker, hmarker, heq₂⟩ := exists_bytesLe hmarker
    obtain ⟨flag, hflag, heq₃⟩ := exists_bytesLe hflag
    have hhead : head = bytesLe 4 version ++ (bytesLe 1 marker ++ bytesLe 1 flag) := by
      have hdrop : head.drop 5 = (head.drop 4).drop 1 := by rw [List.drop_drop]
      rw [← heq₁, ← heq₂, ← heq₃, hdrop, List.take_append_drop, List.take_append_drop]
    refine ⟨_, rest, ⟨version, marker, flag, ins, insBytes, outs, outsBytes, ws, wsBytes, length,
      hversion, hmarker, hflag, hins, houts, hlen, hws, hlength, rfl⟩, ?_⟩
    rw [hhead]
    simp only [List.append_assoc]

/-! ## The segwit marker -/

/-- Behind the version a segwit transaction has a zero byte. -/
theorem isSegwitTx_eq {tx : Bytes} (htx : Addressable tx) :
    isSegwitTx tx = tx[4]?.elim (.err errOutOfBounds) fun marker => .ok (decide (marker = 0)) := by
  rcases readUintLe_cases htx (Nat.zero_le _) (show 4 ≤ 8 by decide) with
    ⟨version, hversion, hlen, heq⟩ | ⟨hno, heq⟩
  · have hle := hversion.le
    rcases readUintLe_cases htx (show 0 + 4 ≤ tx.length by omega) (show 1 ≤ 8 by decide) with
      ⟨_, hmarker, hlen', heq'⟩ | ⟨hno', heq'⟩
    · obtain ⟨marker, rfl⟩ := List.length_eq_one_iff.mp hlen'
      have hget : tx[4]? = some marker := by
        obtain ⟨pre, post, hpre, rfl⟩ := hmarker
        rw [List.getElem?_append_right (by omega), hpre]
        rfl
      have hzero : buffToUintLe [marker] = 0 ↔ marker = 0 := by
        rw [buffToUintLe, buffToUintLe, ← UInt8.toNat_inj]
        rfl
      unfold isSegwitTx
      rw [readUint32, readUint8, heq, Result.ok_bind, heq', hget]
      simp only [Result.ok_bind, hzero]
      rfl
    · have hget : tx[4]? = none := by
        rw [List.getElem?_eq_none_iff]
        by_contra hlt
        obtain ⟨w, hw, hlen'⟩ := exists_occurs (show 0 + 4 + 1 ≤ tx.length by omega)
        exact hno' w hlen' hw
      unfold isSegwitTx
      rw [readUint32, readUint8, heq, Result.ok_bind, heq', hget]
      rfl
  · have hget : tx[4]? = none := by
      rw [List.getElem?_eq_none_iff]
      by_contra hlt
      obtain ⟨w, hw, hlen⟩ := exists_occurs (show 0 + 4 ≤ tx.length by omega)
      exact hno w hlen hw
    unfold isSegwitTx
    rw [readUint32, heq, hget]
    rfl

/-! ## Dropping the witnesses -/

/-- `tx` is laid out as a segwit transaction, and `body` is what is left of it without
marker, flag and witnesses. -/
def Drops (tx body : Bytes) : Prop :=
  ∃ version flags ins insBytes outs outsBytes ws wsBytes rest,
    version.length = 4 ∧ flags.length = 2 ∧ EncodesShort TxIn.Encodes ins insBytes ∧
      EncodesShort TxOut.Encodes outs outsBytes ∧ ws.length = ins.length ∧
      Seq EncodesWitness ws wsBytes ∧ 4 ≤ rest.length ∧
      tx = version ++ (flags ++ (insBytes ++ (outsBytes ++ (wsBytes ++ rest)))) ∧
      body = version ++ (insBytes ++ outsBytes ++ rest)

/-- **When `get-reversed-segwit-txid` answers, and with the digest of what.** -/
theorem droppedTx_eq_ok_iff {tx body : Bytes} (htx : Addressable tx) :
    droppedTx tx = .ok body ↔ Drops tx body := by
  unfold droppedTx
  simp only [Result.bind_eq_ok, Result.expect_eq_ok, Result.unwrapPanic_eq_ok]
  constructor
  · rintro ⟨p₁, h₁, p₂, h₂, p₃, h₃, p₄, h₄, p₅, h₅, p₆, h₆, p₇, h₇, version, hversion, middle,
      hmiddle, rest, hrest, hbody⟩
    obtain ⟨v, _, ⟨-, rfl⟩, hocc₁, rfl⟩ := (readUint32_reads tx _ htx (Nat.zero_le _) p₁).mp h₁
    obtain ⟨m, _, ⟨-, rfl⟩, hocc₂, rfl⟩ := (readUint8_reads tx _ htx hocc₁.le p₂).mp h₂
    obtain ⟨f, _, ⟨-, rfl⟩, hocc₃, rfl⟩ := (readUint8_reads tx _ htx hocc₂.le p₃).mp h₃
    obtain ⟨ins, insBytes, hins, hocc₄, rfl⟩ := (readTxins_reads tx _ htx hocc₃.le p₄).mp h₄
    obtain ⟨outs, outsBytes, houts, hocc₅, rfl⟩ := (readTxouts_reads tx _ htx hocc₄.le p₅).mp h₅
    obtain ⟨ws, wsBytes, hws, hocc₆, rfl⟩ :=
      (readWitnesses_reads hins.1 tx _ htx hocc₅.le p₆).mp h₆
    obtain ⟨l, _, ⟨-, rfl⟩, hocc₇, rfl⟩ := (readUint32_reads tx _ htx hocc₆.le p₇).mp h₇
    clear h₁ h₂ h₃ h₄ h₅ h₆ h₇
    -- the three slices are the strings read, or what follows them
    obtain ⟨hversion, hlen⟩ := slice_eq_some_iff_occurs.mp hversion
    obtain rfl := hversion.unique hocc₁ hlen
    have hbetween := occurs_append_iff.mpr ⟨hocc₄, hocc₅⟩
    dsimp only at hmiddle
    rw [Nat.add_assoc _ insBytes.length] at hmiddle
    obtain ⟨hmiddle, hlen⟩ := slice_eq_some_iff_occurs.mp hmiddle
    obtain rfl := hmiddle.unique hbetween (by rw [hlen, List.length_append])
    have hsize := slice_length hrest
    rw [show tx.length = _ from (Nat.add_sub_cancel' hocc₆.le).symm] at hrest
    obtain ⟨hrest, -⟩ := slice_eq_some_iff_occurs.mp hrest
    have hlock := hocc₇.le
    rw [bytesLe_length 4 l] at hlock
    refine ⟨_, bytesLe 1 m ++ bytesLe 1 f, ins, insBytes, outs, outsBytes, ws, wsBytes, rest,
      bytesLe_length .., rfl, hins, houts, hws.1, hws.2, ?_, ?_, (Result.ok.inj hbody).symm⟩
    · rw [hsize]
      exact Nat.le_sub_of_add_le' hlock
    · have hall := occurs_append_iff.mpr ⟨hocc₁, occurs_append_iff.mpr ⟨hocc₂, occurs_append_iff.mpr
        ⟨hocc₃, occurs_append_iff.mpr ⟨hocc₄, occurs_append_iff.mpr ⟨hocc₅, occurs_append_iff.mpr
        ⟨hocc₆, hrest⟩⟩⟩⟩⟩⟩
      rw [List.append_assoc]
      refine (occurs_self tx).unique hall ?_
      have hle := hocc₆.le
      simp only [List.length_append, bytesLe_length] at hle hsize ⊢
      dsimp only [witnessesState] at hsize
      omega
  · rintro ⟨version, flags, ins, insBytes, outs, outsBytes, ws, wsBytes, rest, hversion, hflags,
      hins, houts, hlen, hws, hrest, hsplit, rfl⟩
    -- cut the first six bytes and the lock time out again
    obtain ⟨v, hv, rfl⟩ := exists_bytesLe hversion
    obtain ⟨first, second, rfl⟩ := List.length_eq_two.mp hflags
    obtain ⟨m, hm, hfirst⟩ := exists_bytesLe (show [first].length = 1 from rfl)
    obtain ⟨f, hf, hsecond⟩ := exists_bytesLe (show [second].length = 1 from rfl)
    obtain ⟨l, hl, hlock⟩ := exists_bytesLe (show (rest.take 4).length = 4 by
      rw [List.length_take]
      omega)
    rw [show ([first, second] : Bytes) = [first] ++ [second] from rfl, hfirst, hsecond,
      List.append_assoc] at hsplit
    have hall := occurs_self tx
    nth_rewrite 1 [hsplit] at hall
    obtain ⟨hocc₁, hall⟩ := occurs_append_iff.mp hall
    obtain ⟨hocc₂, hall⟩ := occurs_append_iff.mp hall
    obtain ⟨hocc₃, hall⟩ := occurs_append_iff.mp hall
    obtain ⟨hocc₄, hall⟩ := occurs_append_iff.mp hall
    obtain ⟨hocc₅, hall⟩ := occurs_append_iff.mp hall
    obtain ⟨hocc₆, hocc₇⟩ := occurs_append_iff.mp hall
    have hlocktime := hocc₇
    rw [← List.take_append_drop 4 rest, hlock] at hlocktime
    have hend : tx.length = 0 + (bytesLe 4 v).length + (bytesLe 1 m).length + (bytesLe 1 f).length +
        insBytes.length + outsBytes.length + wsBytes.length + rest.length := by
      rw [hsplit]
      simp only [List.length_append]
      omega
    refine ⟨_, (readUint32_reads tx _ htx (Nat.zero_le _) _).mpr ⟨v, _, ⟨hv, rfl⟩, hocc₁, rfl⟩,
      _, (readUint8_reads tx _ htx hocc₁.le _).mpr ⟨m, _, ⟨hm, rfl⟩, hocc₂, rfl⟩,
      _, (readUint8_reads tx _ htx hocc₂.le _).mpr ⟨f, _, ⟨hf, rfl⟩, hocc₃, rfl⟩,
      _, (readTxins_reads tx _ htx hocc₃.le _).mpr ⟨ins, _, hins, hocc₄, rfl⟩,
      _, (readTxouts_reads tx _ htx hocc₄.le _).mpr ⟨outs, _, houts, hocc₅, rfl⟩,
      _, (readWitnesses_reads hins.1 tx _ htx hocc₅.le _).mpr ⟨ws, _, ⟨hlen, hws⟩, hocc₆, rfl⟩,
      _, (readUint32_reads tx _ htx hocc₆.le _).mpr
        ⟨l, _, ⟨hl, rfl⟩, (occurs_append_iff.mp hlocktime).1, rfl⟩,
      _, slice_eq_some_iff_occurs.mpr ⟨hocc₁, rfl⟩,
      insBytes ++ outsBytes, ?_, rest, ?_, rfl⟩
    · dsimp only
      rw [Nat.add_assoc _ insBytes.length]
      exact slice_eq_some_iff_occurs.mpr ⟨occurs_append_iff.mpr ⟨hocc₄, hocc₅⟩, List.length_append⟩
    · rw [hend]
      exact slice_eq_some_iff_occurs.mpr ⟨hocc₇, rfl⟩

theorem droppedTx_ne_err {tx : Bytes} {e : Nat} : droppedTx tx ≠ .err e := by
  unfold droppedTx
  simp only [ne_eq, Result.bind_eq_err, Result.expect_ne_err, Result.unwrapPanic_ne_err,
    Result.pure_def, reduceCtorEq, false_or, and_false, exists_false, not_false_eq_true]

theorem droppedTx_abort_iff {tx : Bytes} (htx : Addressable tx) :
    (∃ x, droppedTx tx = .abort x) ↔ ¬ ∃ body, Drops tx body := by
  simp only [← droppedTx_eq_ok_iff htx]
  cases h : droppedTx tx with
  | ok body => simp
  | err e => exact absurd h droppedTx_ne_err
  | abort x => simp

end BitcoinOracle.ClarityBitcoin
