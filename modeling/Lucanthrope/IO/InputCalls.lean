import Lucanthrope.IO.Decode

/-!
# The data input interface inside the data

`ReadCall` is every call of the data input interface: `readByte`, `read(n)`, `eof()` and the
typed readers. `ReadCall.inside c T` is what `c` returns on the bytes `T` still to come, and how
many it takes, when it stays inside `T`: `readByte` and `eof()` with a byte left, `read(n)` with
`n` bytes left, a typed reader whose field ends inside `T`; it is `none` for a call that would
look past the end of `T`. Such a call does not see the end, so it gives the same on `T ++ U`
(`ReadCall.inside_append`), and a stream that supplies `T` answers it without any contract on
what its `fillImpl` does at the end (`Supplies` alone):

> `runReads_inside`: for a class that supplies its source, every sequence of calls that stays
> inside the bytes the stream has still to deliver returns what `insideRun` says, and takes
> exactly the bytes it says.

This is what the RAM reader needs, whose end is not exact (`RAMFileIndexInput.lean`), and
what reading back written values needs (`Values.lean`).
-/

namespace Lucanthrope

namespace IndexInput

/-- A call of the data input interface. -/
inductive ReadCall where
  | readByte
  | read (n : Nat)
  | eof
  | readInt32
  | readInt64
  | readVarint32
  | readVarint64
  | readString
  deriving DecidableEq, Repr

variable {σ : Type} (impl : InputImpl σ)

/-- The call, on the stream. -/
def ReadCall.run : ReadCall → Op (IndexInput σ) InResult
  | .readByte => .byte <$> IndexInput.readByte impl
  | .read n => .bytes <$> IndexInput.read impl n
  | .eof => .eof <$> IndexInput.eof impl
  | .readInt32 => .u32 <$> IndexInput.readInt32 impl
  | .readInt64 => .u64 <$> IndexInput.readInt64 impl
  | .readVarint32 => .u32 <$> IndexInput.readVarint32 impl
  | .readVarint64 => .u64 <$> IndexInput.readVarint64 impl
  | .readString => .bytes <$> IndexInput.readString impl

/-- The calls, one after another, and their results. -/
def runReads : List ReadCall → Op (IndexInput σ) (List InResult)
  | [] => pure []
  | c :: cs => do
    let r ← c.run impl
    let rs ← runReads cs
    pure (r :: rs)

/-- The call on the bytes `T` still to come, when it stays inside them: its result and the
number of bytes it takes. -/
def ReadCall.inside : ReadCall → List UInt8 → Option (InResult × Nat)
  | .readByte, [] => none
  | .readByte, b :: _ => some (.byte b, 1)
  | .read n, T => if n ≤ T.length then some (.bytes (T.take n), n) else none
  | .eof, T => if T = [] then none else some (.eof false, 0)
  | .readInt32, T =>
    if 4 ≤ T.length then some (.u32 (UInt32.ofNat (littleEndian 4 T)), 4) else none
  | .readInt64, T =>
    if 8 ≤ T.length then some (.u64 (UInt64.ofNat (littleEndian 8 T)), 8) else none
  | .readVarint32, T =>
    (varintSpec kMaxVarintLength32 32 T).map fun r => (.u32 (UInt32.ofNat r.1), r.2)
  | .readVarint64, T =>
    (varintSpec kMaxVarintLength64 64 T).map fun r => (.u64 (UInt64.ofNat r.1), r.2)
  | .readString, T =>
    (varintSpec kMaxVarintLength32 32 T).bind fun r =>
      if r.1 ≤ T.length - r.2 then some (.bytes ((T.drop r.2).take r.1), r.2 + r.1) else none

/-- The calls on the bytes `T`, all inside them. -/
def insideRun : List ReadCall → List UInt8 → Option (List InResult × Nat)
  | [], _ => some ([], 0)
  | c :: cs, T =>
    (c.inside T).bind fun r =>
      (insideRun cs (T.drop r.2)).map fun rs => (r.1 :: rs.1, r.2 + rs.2)

/-! ## What lies past the end does not matter -/

theorem varintDecode_append (w : Nat) (U : List UInt8) :
    ∀ {fuel i ret : Nat} {T : List UInt8} {r : Nat × Nat}, varintDecode w fuel i ret T = some r →
      varintDecode w fuel i ret (T ++ U) = some r
  | 0, _, _, _, _, h => by simp [varintDecode] at h
  | _ + 1, _, _, [], _, h => by simp [varintDecode] at h
  | fuel + 1, i, ret, b :: bs, r, h => by
    simp only [varintDecode, List.cons_append, List.append_eq] at h ⊢
    split_ifs at h ⊢
    · exact h
    · obtain ⟨r', h', rfl⟩ := Option.map_eq_some'.1 h
      rw [varintDecode_append w U h']
      rfl

theorem varintSpec_append {kMax w : Nat} (hw : 7 * kMax < w + 7) {T : List UInt8}
    {r : Nat × Nat} (U : List UInt8) (h : varintSpec kMax w T = some r) :
    varintSpec kMax w (T ++ U) = some r := by
  rw [← varintDecode_eq_varintSpec hw] at h ⊢
  exact varintDecode_append w U h

theorem littleEndian_append {n : Nat} {T : List UInt8} (hn : n ≤ T.length) (U : List UInt8) :
    littleEndian n (T ++ U) = littleEndian n T := by
  rw [← littleEndian_take, List.take_append_of_le_length hn, littleEndian_take]

theorem ReadCall.inside_le {c : ReadCall} {T : List UInt8} {r : InResult} {k : Nat}
    (h : c.inside T = some (r, k)) : k ≤ T.length := by
  cases c <;> simp only [ReadCall.inside] at h
  case readByte => cases T <;> simp at h; obtain ⟨-, rfl⟩ := h; simp
  case read n => split_ifs at h with hn; cases h; exact hn
  case eof => split_ifs at h; cases h; exact Nat.zero_le _
  case readInt32 => split_ifs at h with hn; cases h; exact hn
  case readInt64 => split_ifs at h with hn; cases h; exact hn
  case readVarint32 =>
    obtain ⟨⟨v, k'⟩, hv, hr⟩ := Option.map_eq_some'.1 h
    cases hr
    exact (varintSpec_some hv).2
  case readVarint64 =>
    obtain ⟨⟨v, k'⟩, hv, hr⟩ := Option.map_eq_some'.1 h
    cases hr
    exact (varintSpec_some hv).2
  case readString =>
    obtain ⟨⟨len, k'⟩, hv, hr⟩ := Option.bind_eq_some.1 h
    split_ifs at hr with hlen
    cases hr
    have := (varintSpec_some hv).2
    omega

/-- A call that stays inside `T` does not see what follows `T`. -/
theorem ReadCall.inside_append {c : ReadCall} {T : List UInt8} {r : InResult} {k : Nat}
    (U : List UInt8) (h : c.inside T = some (r, k)) : c.inside (T ++ U) = some (r, k) := by
  have hk := ReadCall.inside_le h
  cases c <;> simp only [ReadCall.inside] at h ⊢
  case readByte => cases T <;> simp at h ⊢; exact h
  case read n =>
    split_ifs at h with hn
    cases h
    rw [if_pos (by simp; omega), List.take_append_of_le_length hn]
  case eof =>
    split_ifs at h with hT
    cases h
    rw [if_neg (by simp [hT])]
  case readInt32 =>
    split_ifs at h with hn
    cases h
    rw [if_pos (by simp; omega), littleEndian_append hn]
  case readInt64 =>
    split_ifs at h with hn
    cases h
    rw [if_pos (by simp; omega), littleEndian_append hn]
  case readVarint32 =>
    obtain ⟨r', hv, hr⟩ := Option.map_eq_some'.1 h
    rw [varintSpec_append (by decide) U hv]
    exact hr ▸ rfl
  case readVarint64 =>
    obtain ⟨r', hv, hr⟩ := Option.map_eq_some'.1 h
    rw [varintSpec_append (by decide) U hv]
    exact hr ▸ rfl
  case readString =>
    obtain ⟨⟨len, k'⟩, hv, hr⟩ := Option.bind_eq_some.1 h
    have := (varintSpec_some hv).2
    split_ifs at hr with hlen
    cases hr
    rw [varintSpec_append (by decide) U hv, Option.some_bind, if_pos (by simp; omega),
      List.drop_append_of_le_length (by omega), List.take_append_of_le_length (by simp; omega)]

/-! ## On a stream -/

section Run

variable {impl} {I : IndexInput σ → Prop} {src : IndexInput σ → List UInt8} {s : IndexInput σ}

/-- Every call that stays inside the bytes still to come returns what `ReadCall.inside` says. -/
theorem ReadCall.run_inside (hs : Supplies impl I src) (h : I s) (c : ReadCall) {r : InResult}
    {k : Nat} (hc : c.inside (remaining src s) = some (r, k)) : Reads I src (c.run impl) s r k := by
  cases c <;> simp only [ReadCall.inside] at hc
  case readByte =>
    cases hr : remaining src s with
    | nil => rw [hr] at hc; cases hc
    | cons b T =>
      rw [hr] at hc
      cases hc
      exact (readByte_reads hs h hr).map _
  case read n =>
    split_ifs at hc with hn
    cases hc
    simpa only [min_eq_left hn] using (read_reads hs h (.inl hn)).map InResult.bytes
  case eof =>
    split_ifs at hc with hT
    cases hc
    have he : (remaining src s).isEmpty = false := by
      cases hr : remaining src s
      · exact absurd hr hT
      · rfl
    exact he ▸ (eof_spec hs h (.inl hT)).map InResult.eof
  case readInt32 =>
    split_ifs at hc with hn
    cases hc
    exact (readInt32_reads hs h hn).map _
  case readInt64 =>
    split_ifs at hc with hn
    cases hc
    exact (readInt64_reads hs h hn).map _
  case readVarint32 =>
    obtain ⟨⟨v, k'⟩, hv, hr⟩ := Option.map_eq_some'.1 hc
    cases hr
    exact (readVarint32_reads hs h hv).map _
  case readVarint64 =>
    obtain ⟨⟨v, k'⟩, hv, hr⟩ := Option.map_eq_some'.1 hc
    cases hr
    exact (readVarint64_reads hs h hv).map _
  case readString =>
    obtain ⟨⟨len, k'⟩, hv, hr⟩ := Option.bind_eq_some.1 hc
    split_ifs at hr with hlen
    cases hr
    exact (readString_reads hs h ((varintDecode32_eq _).trans hv) hlen).map _

/-- Every sequence of calls that stays inside the bytes still to be delivered returns what
`insideRun` says and takes exactly the bytes it says. -/
theorem runReads_inside (hs : Supplies impl I src) (cs : List ReadCall) :
    ∀ {s : IndexInput σ}, I s → ∀ {rs : List InResult} {k : Nat},
      insideRun cs (remaining src s) = some (rs, k) → Reads I src (runReads impl cs) s rs k := by
  induction cs with
  | nil => rintro s h rs k ⟨⟩; exact Reads.pure h _
  | cons c cs ih =>
    intro s h rs k hrun
    obtain ⟨⟨r, k₁⟩, hc, hrun'⟩ := Option.bind_eq_some.1 hrun
    obtain ⟨⟨rs', k'⟩, hrest, hr⟩ := Option.map_eq_some'.1 hrun'
    cases hr
    refine (ReadCall.run_inside hs h c hc).bind fun s' h' hr' => ?_
    have hih : Reads I src (runReads impl cs) s' rs' k' := ih h' (by rw [hr']; exact hrest)
    have hrest : Reads I src (runReads impl cs >>= fun rs => pure (r :: rs)) s' (r :: rs')
        (k' + 0) := hih.bind fun _ h'' _ => Reads.pure h'' (r :: rs')
    simpa only [Nat.add_zero] using hrest

/-- A list stream holding a string of two bytes and one more byte: `readString` and `readByte`
take all four. -/
theorem runReads_inside_listInput :
    Reads listInv (·.own) (runReads listInput [.readString, .readByte])
      (create Heap.zero [2, 7, 8, 9]) [.bytes [7, 8], .byte 9] 4 :=
  runReads_inside listInput_supplies [.readString, .readByte]
    ⟨⟨le_refl _, fun h => absurd rfl h⟩, fun h => absurd rfl h⟩ rfl

end Run

end IndexInput

end Lucanthrope
