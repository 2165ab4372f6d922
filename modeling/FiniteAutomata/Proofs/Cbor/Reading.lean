import FiniteAutomata.Cbor.Record

/-!
# Reading written items

What is written is read back, with whatever follows: characters, keys, tuples and records. Main statement
`reads_record`: a record is read back field by field, in the order in which it is written. Two written
items in front of anything can only agree when they are the same item (`Reads.cancel`).
-/
namespace FiniteAutomata

variable {α β : Type}

theorem Reads.map {read : Reader α} {bytes : List UInt8} {v : α} (h : Reads read bytes v) (f : α → β) :
    Reads (fun bs => (read bs).map fun (v, rest) => (f v, rest)) bytes (f v) := by
  intro rest
  simp only [h rest, Option.map_some]

/-- Of two written items in front of anything, what follows agrees when the whole does. -/
theorem Reads.cancel {read : Reader α} {bs cs r s : List UInt8} {x y : α} (hx : Reads read bs x)
    (hy : Reads read cs y) (h : bs ++ r = cs ++ s) : x = y ∧ r = s := by
  have e := hx r
  rw [h, hy s] at e
  obtain ⟨hxy, hrs⟩ := Prod.mk.inj (Option.some.inj e)
  exact ⟨hxy.symm, hrs.symm⟩

namespace Cbor

/-! ## Characters and keys -/

theorem length_utf8Bytes_singleton_le (c : Char) : (utf8Bytes (String.singleton c)).length ≤ 4 := by
  have h : (utf8Bytes (String.singleton c)).length = (String.singleton c).utf8ByteSize := rfl
  rw [h, String.utf8ByteSize_singleton]
  exact c.utf8Size_le_four

theorem reads_char (c : Char) : Reads readChar (textBytes (String.singleton c)) c := by
  intro rest
  have hlen := length_utf8Bytes_singleton_le c
  have hsize : (utf8Bytes (String.singleton c)).length < UInt64.size := Nat.lt_of_le_of_lt hlen (by decide)
  have hhead := readUntagged_headBytes (by decide : 3 < 6) hsize (utf8Bytes (String.singleton c) ++ rest)
  simp [readChar, textBytes, List.append_assoc, hhead, Head.ofParts?, hlen, takeBytes?_append _ rest]

theorem reads_key {s : String} (h : (utf8Bytes s).length ≤ maxKeyLength) :
    Reads readKey (textBytes s) (some s) := by
  intro rest
  have hsize : (utf8Bytes s).length < UInt64.size := Nat.lt_of_le_of_lt h (by decide)
  have hhead := readUntagged_headBytes (by decide : 3 < 6) hsize (utf8Bytes s ++ rest)
  simp [readKey, textBytes, List.append_assoc, hhead, Head.ofParts?, readKeyContent, h,
    takeBytes?_append _ rest]

/-! ## Tuples -/

theorem reads_tuple {read : Reader α} {ofByte? : UInt8 → Option α} {bytes : α → List UInt8} {vs : List α}
    {n : Nat} (hn : vs.length = n) (hsize : n < UInt64.size) (h : ∀ v ∈ vs, Reads read (bytes v) v) :
    Reads (readTuple read ofByte? n) (arrayBytes bytes vs) vs := by
  intro rest
  subst hn
  have hhead := readUntagged_headBytes (by decide : 4 < 6) hsize (vs.flatMap bytes ++ rest)
  simp [readTuple, arrayBytes, List.append_assoc, hhead, Head.ofParts?, reads_count h rest]

theorem reads_byte (b : UInt8) : Reads readByte (unsignedBytes b.toNat) b := by
  intro rest
  have hlt : b.toNat < 256 := b.toNat_lt
  have hread := reads_unsigned (Nat.lt_trans hlt (by decide)) rest
  simp [readByte, hread, hlt]

/-! ## Records -/

section Record
variable {κ : Type} {value : κ → Type} {key? : String → Option κ} {read : (k : κ) → Reader (value k)}
  {text : κ → String} {bytes : κ → List UInt8} {val : (k : κ) → value k} {ks : List κ}

theorem reads_field (levels : Nat) {k : κ} (hk : key? (text k) = some k)
    (hv : Reads (read k) (bytes k) (val k)) :
    Reads (readField key? read levels (some (text k))) (bytes k) (some ⟨k, val k⟩) := by
  intro rest
  simp only [readField, Option.bind_some, hk]
  exact congrArg (Option.map _) (hv rest)

/-- **A record is read back**, when its keys are known and the values are read back. -/
theorem reads_record (levels : Nat) (hn : ks.length < UInt64.size) (hk : ∀ k ∈ ks, key? (text k) = some k)
    (ht : ∀ k ∈ ks, (utf8Bytes (text k)).length ≤ maxKeyLength)
    (hv : ∀ k ∈ ks, Reads (read k) (bytes k) (val k)) :
    Reads (readRecord key? read levels) (recordBytes (ks.map fun k => (text k, bytes k)))
      (ks.map fun k => ⟨k, val k⟩) := by
  intro rest
  -- each field is read as its name, and as its key with the value
  have hentries : Reads (readCount (readPair readKey (readField key? read levels)) ks.length)
      (ks.flatMap fun k => textBytes (text k) ++ bytes k)
      (ks.map fun k => (some (text k), some ⟨k, val k⟩)) :=
    reads_count_map fun k hm => reads_pair (reads_key (ht k hm)) (reads_field levels (hk k hm) (hv k hm))
  have hfields : (ks.map fun k => (some (text k), some (⟨k, val k⟩ : (k : κ) × value k))).filterMap
      Prod.snd = ks.map fun k => ⟨k, val k⟩ := by
    rw [List.filterMap_map]
    exact congrFun List.filterMap_eq_map ks
  have hbytes : recordBytes (ks.map fun k => (text k, bytes k)) =
      headBytes 5 ks.length ++ ks.flatMap fun k => textBytes (text k) ++ bytes k := by
    simp [recordBytes, mapBytes, List.flatMap_map]
  simp [readRecord, readMap, hbytes, List.append_assoc, readUntagged_headBytes (by decide : 5 < 6) hn,
    Head.ofParts?, readItems, hentries rest, hfields]

/-- Records of the same keys only agree when each of their values does. -/
theorem recordBytes_cancel {bytes' : κ → List UInt8}
    (h : ∀ k ∈ ks, ∀ r s, bytes k ++ r = bytes' k ++ s → r = s)
    (e : recordBytes (ks.map fun k => (text k, bytes k)) =
      recordBytes (ks.map fun k => (text k, bytes' k))) : ∀ k ∈ ks, bytes k = bytes' k := by
  have hflat : (ks.flatMap fun k => textBytes (text k) ++ bytes k) =
      ks.flatMap fun k => textBytes (text k) ++ bytes' k := by
    simpa only [recordBytes, mapBytes, List.length_map, List.flatMap_map, id_eq,
      List.append_cancel_left_eq] using e
  clear e
  induction ks with
  | nil => exact fun k hk => absurd hk List.not_mem_nil
  | cons l ls ih =>
    simp only [List.flatMap_cons, List.append_assoc, List.append_cancel_left_eq] at hflat
    have hrest := h l List.mem_cons_self _ _ hflat
    rw [hrest] at hflat
    intro k hk
    rcases List.mem_cons.1 hk with rfl | hk
    · exact List.append_cancel_right hflat
    · exact ih (fun m hm => h m (List.mem_cons_of_mem l hm)) hrest k hk

end Record

end Cbor

end FiniteAutomata
