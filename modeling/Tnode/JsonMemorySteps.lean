import Tnode.JsonMemory

namespace Tnode

open Memory

/-- The memory holds the parser: the bytes of `parse_buffer` with a zero behind them, and the
modes up to `top`. -/
structure JsonParserStruct.Refines (m : JsonParserStruct) (jc : JsonParser) : Prop where
  state : m.state = jc.state
  type : m.type = jc.type
  escaped : m.escaped = jc.escaped
  surrogate : m.utf16HighSurrogate = jc.utf16HighSurrogate
  count : m.parseBufferCount = jc.parseBuffer.length
  buffer : ∃ rest, m.parseBuffer = jc.parseBuffer.map some ++ some 0 :: rest
  top : m.top + 1 = jc.stack.length
  stack : ∃ rest, m.stack = jc.stack.reverse.map some ++ rest
  room : 0 < m.stack.length

theorem assert_of {p : Prop} [Decidable p] (h : p) : assert p = some () := if_pos h

namespace JsonParserStruct

variable {m : JsonParserStruct} {jc : JsonParser}

theorem Refines.withBuffer (h : m.Refines jc) (xs : List Byte) (rest : Block Byte)
    (isStatic : Bool) :
    { m with
      parseBuffer := xs.map some ++ some 0 :: rest
      parseBufferCount := xs.length
      isStatic }.Refines { jc with parseBuffer := xs } :=
  ⟨h.state, h.type, h.escaped, h.surrogate, rfl, ⟨rest, rfl⟩, h.top, h.stack, h.room⟩

theorem Refines.clear (h : m.Refines jc) : ∃ m', m.clear = some m' ∧ m'.Refines jc.clear := by
  obtain ⟨rest, hbuffer⟩ := h.buffer
  have hcell : ∃ cell cells, m.parseBuffer = cell :: cells := by
    cases hxs : jc.parseBuffer <;> simp [hbuffer, hxs]
  obtain ⟨cell, cells, hcells⟩ := hcell
  have hstore : m.parseBuffer.store 0 0 = some (some 0 :: cells) := by
    simpa [hcells] using Block.store_append [] (0 : Byte) cell cells
  exact ⟨_, by simp [JsonParserStruct.clear, hstore], h.withBuffer [] cells m.isStatic⟩

theorem Refines.popBack (h : m.Refines jc) (hne : jc.parseBuffer ≠ []) :
    ∃ m', m.popBack = some m' ∧ m'.Refines jc.popBack := by
  obtain ⟨rest, hbuffer⟩ := h.buffer
  obtain ⟨xs, c, hxs⟩ := (List.eq_nil_or_concat' jc.parseBuffer).resolve_left hne
  have hcount : m.parseBufferCount = xs.length + 1 := by simp [h.count, hxs]
  have hstore : m.parseBuffer.store (xs.length : Nat) 0 =
      some (xs.map some ++ some 0 :: some 0 :: rest) := by
    rw [hbuffer, hxs, List.map_append, List.append_assoc]
    exact Block.store_append xs 0 (some c) _
  have hpop : jc.popBack = { jc with parseBuffer := xs } := by simp [JsonParser.popBack, hxs]
  rw [hpop]
  refine ⟨_, ?_, h.withBuffer xs (some 0 :: rest) m.isStatic⟩
  simp [JsonParserStruct.popBack, assert, hcount, hstore]

/-- There is room for a byte and for the zero behind it. -/
theorem Refines.reserve (h : m.Refines jc) : ∃ cell cell' rest isStatic,
    m.reserve =
      { m with parseBuffer := jc.parseBuffer.map some ++ cell :: cell' :: rest, isStatic } := by
  obtain ⟨rest, hbuffer⟩ := h.buffer
  have hlen : m.parseBuffer.length = jc.parseBuffer.length + 1 + rest.length := by
    simp only [hbuffer, List.length_append, List.length_map, List.length_cons]
    omega
  unfold JsonParserStruct.reserve
  rw [h.count]
  by_cases hgrow : jc.parseBuffer.length + 1 ≥ m.parseBuffer.length
  · rw [if_pos hgrow]
    have hrest : rest = [] := List.length_eq_zero_iff.mp (by omega)
    subst rest
    cases hs : m.isStatic with
    | true =>
      have hblock := Block.grow_append jc.parseBuffer [some 0]
      rw [← hbuffer, List.length_singleton, Nat.mul_one] at hblock
      exact ⟨none, none, Block.alloc jc.parseBuffer.length, false, by
        simp [growParseBuffer, hs, h.count, hblock, Block.alloc_succ]⟩
    | false =>
      have hblock := Block.grow_append (jc.parseBuffer ++ [0]) []
      have hwhole : (jc.parseBuffer ++ [0]).map some ++ [] = m.parseBuffer := by simp [hbuffer]
      have hsize : (jc.parseBuffer ++ [0]).length = m.parseBuffer.length := by simp [hlen]
      rw [hwhole, hsize, hlen] at hblock
      simp only [List.length_nil, Nat.add_zero, Nat.mul_zero, Block.alloc_succ] at hblock hlen
      exact ⟨some 0, none, Block.alloc jc.parseBuffer.length, false, by
        simp [growParseBuffer, hs, h.count, hlen, hblock]⟩
  · rw [if_neg hgrow]
    cases rest with
    | nil => simp only [List.length_nil] at hlen; omega
    | cons cell rest => exact ⟨some 0, cell, rest, m.isStatic, by rw [← hbuffer, ← h.count]⟩

theorem Refines.pushBack (h : m.Refines jc) (c : Byte) :
    ∃ m', m.pushBack c = some m' ∧ m'.Refines (jc.pushBack c) := by
  obtain ⟨cell, cell', rest, isStatic, hroom⟩ := h.reserve
  have hfirst := Block.store_append jc.parseBuffer c cell (cell' :: rest)
  have hsecond := Block.store_append (jc.parseBuffer ++ [c]) 0 cell' rest
  simp only [List.map_append, List.append_assoc, List.map_cons, List.map_nil, List.cons_append,
    List.nil_append, List.length_append, List.length_singleton, Nat.cast_add, Nat.cast_one]
    at hsecond
  refine ⟨_, ?_, h.withBuffer (jc.parseBuffer ++ [c]) rest isStatic⟩
  simp [JsonParserStruct.pushBack, hroom, poke, terminate, h.count, hfirst, hsecond]

theorem Refines.push (h : m.Refines jc) (mode : JsonMode) :
    ∃ m', m.push mode = some m' ∧ m'.Refines (jc.push mode) := by
  obtain ⟨rest, hstack⟩ := h.stack
  have hlen : m.stack.length = jc.stack.length + rest.length := by simp [hstack]
  have hroom := h.room
  have hcell : ∃ cell cells,
      (if m.top + 1 ≥ m.stack.length then m.stack.grow m.stack.length else m.stack) =
        jc.stack.reverse.map some ++ cell :: cells := by
    rw [h.top]
    by_cases hgrow : (jc.stack.length : Int) ≥ m.stack.length
    · rw [if_pos hgrow]
      have hrest : rest = [] := List.length_eq_zero_iff.mp (by omega)
      subst rest
      have hblock := Block.grow_append jc.stack.reverse []
      rw [List.length_reverse] at hblock
      rw [hlen, hstack]
      cases hn : jc.stack.length with
      | zero => simp only [List.length_nil] at hlen; omega
      | succ n =>
        refine ⟨none, Block.alloc n, ?_⟩
        rw [hn] at hblock
        simpa [Block.alloc_succ] using hblock
    · rw [if_neg hgrow]
      cases rest with
      | nil => simp only [List.length_nil] at hlen; omega
      | cons cell rest => exact ⟨cell, rest, hstack⟩
  obtain ⟨cell, cells, hcells⟩ := hcell
  have hstore := Block.store_append jc.stack.reverse mode cell cells
  rw [List.length_reverse, ← hcells, ← h.top] at hstore
  refine ⟨{ m with top := m.top + 1, stack := _ }, by simp [JsonParserStruct.push, hstore]; rfl, ?_⟩
  refine ⟨h.state, h.type, h.escaped, h.surrogate, h.count, h.buffer, ?_, ⟨cells, ?_⟩, ?_⟩
  · simp [JsonParser.push, h.top]
  · simp [JsonParser.push]
  · simp

theorem Refines.load_top (h : m.Refines jc) {top : JsonMode} {stack : List JsonMode}
    (hjc : jc.stack = top :: stack) : m.stack.load m.top = some top := by
  have htop := h.top
  obtain ⟨rest, hstack⟩ := h.stack
  rw [hjc, List.length_cons] at htop
  rw [hjc, List.reverse_cons, List.map_append, List.append_assoc] at hstack
  have hindex : m.top = stack.reverse.length := by
    rw [List.length_reverse]
    omega
  rw [hstack, hindex]
  exact Block.load_append stack.reverse top rest

theorem Refines.pop (h : m.Refines jc) (mode : JsonMode) :
    ∃ r, m.pop mode = some r ∧ Option.Rel Refines r (jc.pop mode) := by
  have htop := h.top
  cases hjc : jc.stack with
  | nil =>
    rw [hjc, List.length_nil] at htop
    refine ⟨none, if_pos (by omega), ?_⟩
    simp [JsonParser.pop, hjc]
  | cons top stack =>
    have hload := h.load_top hjc
    rw [hjc, List.length_cons] at htop
    refine ⟨if top = mode then some { m with top := m.top - 1 } else none, ?_, ?_⟩
    · simp [JsonParserStruct.pop, hload, show ¬m.top < 0 by omega]
    · by_cases hmode : top = mode
      · simp only [JsonParser.pop, hjc, hmode, if_true]
        obtain ⟨rest, hstack⟩ := h.stack
        refine .some ⟨h.state, h.type, h.escaped, h.surrogate, h.count, h.buffer, ?_,
          ⟨some top :: rest, ?_⟩, h.room⟩
        · dsimp only
          omega
        · simpa [hjc] using hstack
      · simp only [JsonParser.pop, hjc, if_neg hmode]
        exact .none

theorem new_refines : ∃ m, new = some m ∧ m.Refines .new := by
  have hstart : Refines ⟨.GO, .none, false, 0, -1, Block.alloc JSON_PARSER_STACK_SIZE,
      List.replicate JSON_PARSER_PARSE_BUFFER_SIZE (some 0), 0, true⟩
        ⟨.GO, .none, false, 0, [], []⟩ :=
    ⟨rfl, rfl, rfl, rfl, rfl, ⟨List.replicate 3499 (some 0), rfl⟩, rfl,
      ⟨Block.alloc JSON_PARSER_STACK_SIZE, rfl⟩, by simp [JSON_PARSER_STACK_SIZE]⟩
  obtain ⟨m', hm', hpush⟩ := hstart.push .done
  obtain ⟨m, hm, hrefines⟩ := hpush.clear
  exact ⟨m, by simp [new, hm', hm], hrefines⟩

/-- The bytes that are reported as a string. -/
theorem Refines.read (h : m.Refines jc) :
    m.parseBuffer.read m.parseBufferCount = some jc.parseBuffer := by
  obtain ⟨rest, hbuffer⟩ := h.buffer
  rw [hbuffer, h.count]
  exact Block.read_append ..

theorem Refines.value (h : m.Refines jc)
    (hz : jc.type ≠ .string → 0 ∉ jc.parseBuffer) : m.value m.type = some jc.pending := by
  obtain ⟨rest, hbuffer⟩ := h.buffer
  have hcstr : jc.type ≠ .string → m.parseBuffer.readUntil 0 = some jc.parseBuffer := by
    intro ht
    rw [hbuffer]
    exact Block.readUntil_append (hz ht) rest
  rw [h.type, JsonParser.pending]
  cases ht : jc.type with
  | none | null | true | false => rfl
  | integer => simp [JsonParserStruct.value, hcstr (by simp [ht])]
  | float => simp [JsonParserStruct.value, hcstr (by simp [ht])]
  | string => simp [JsonParserStruct.value, h.read]

/-- The digits of a 16-bit number, put together by shifts and by sums. -/
theorem or_shifts {a b c d : Nat} (hb : b < 16) (hc : c < 16) (hd : d < 16) :
    (((0 ||| a <<< 12) ||| b <<< 8) ||| c <<< 4) ||| d <<< 0 =
      16 * (16 * (16 * (16 * 0 + a) + b) + c) + d := by
  have hfirst : a <<< 12 ||| b <<< 8 = (16 * a + b) <<< 8 := by
    rw [← Nat.shiftLeft_add_eq_or_of_lt (by rw [Nat.shiftLeft_eq]; omega)]
    simp only [Nat.shiftLeft_eq]
    omega
  have hsecond : (16 * a + b) <<< 8 ||| c <<< 4 = (16 * (16 * a + b) + c) <<< 4 := by
    rw [← Nat.shiftLeft_add_eq_or_of_lt (by rw [Nat.shiftLeft_eq]; omega)]
    simp only [Nat.shiftLeft_eq]
    omega
  rw [Nat.zero_or, hfirst, hsecond, Nat.shiftLeft_zero,
    ← Nat.shiftLeft_add_eq_or_of_lt (by omega), Nat.shiftLeft_eq]
  omega

theorem readHex_eq {xs : List Byte} {a b c d : Byte} {rest : Block Byte}
    (hbuffer : m.parseBuffer = (xs ++ [a, b, c, d]).map some ++ rest)
    (ha : hexValue a < 16) (hb : hexValue b < 16) (hc : hexValue c < 16) (hd : hexValue d < 16) :
    m.readHex 0 xs.length [12, 8, 4, 0] =
      some ([a, b, c, d].foldl (fun uc c => 16 * uc + hexValue c) 0) := by
  have h0 := Block.load_append xs a ([b, c, d].map some ++ rest)
  have h1 := Block.load_append (xs ++ [a]) b ([c, d].map some ++ rest)
  have h2 := Block.load_append (xs ++ [a, b]) c ([d].map some ++ rest)
  have h3 := Block.load_append (xs ++ [a, b, c]) d rest
  simp only [List.map_append, List.map_cons, List.map_nil, List.append_assoc, List.cons_append,
    List.nil_append, List.length_append, List.length_cons, List.length_nil] at hbuffer h0 h1 h2 h3
  rw [← hbuffer] at h0 h1 h2 h3
  simp only [readHex, h0, h1, h2, h3, Option.bind_eq_bind, Option.bind_some, assert_of ha,
    assert_of hb, assert_of hc, assert_of hd, or_shifts hb hc hd, List.foldl_cons, List.foldl_nil]

theorem writeUtf8_eq {m : JsonParserStruct} {xs ys : List Byte} {rest : Block Byte}
    (hbuffer : m.parseBuffer = xs.map some ++ rest) (hcount : m.parseBufferCount = xs.length)
    (hroom : ys.length < rest.length) :
    ∃ rest', m.writeUtf8 ys = some { m with
      parseBuffer := (xs ++ ys).map some ++ some 0 :: rest'
      parseBufferCount := (xs ++ ys).length } := by
  induction ys generalizing m xs rest with
  | nil =>
    obtain ⟨cell, rest, rfl⟩ := List.exists_cons_of_length_pos hroom
    have hstore := Block.store_append xs 0 cell rest
    refine ⟨rest, ?_⟩
    simp [writeUtf8, terminate, hbuffer, hcount, hstore]
  | cons c ys ih =>
    obtain ⟨cell, rest, rfl⟩ := List.exists_cons_of_length_pos (Nat.zero_lt_of_lt hroom)
    have hstore := Block.store_append xs c cell rest
    rw [← hbuffer] at hstore
    obtain ⟨rest', hwrite⟩ := @ih
      { m with
        parseBuffer := (xs ++ [c]).map some ++ rest, parseBufferCount := (xs ++ [c]).length }
      (xs ++ [c]) rest rfl rfl (by simpa using hroom)
    refine ⟨rest', ?_⟩
    simp only [List.append_assoc, List.singleton_append] at hwrite
    rw [← hwrite]
    simp [writeUtf8, poke, hstore, hcount]

theorem length_utf8Bytes (uc trailBytes : Nat) :
    (utf8Bytes uc trailBytes).length = trailBytes + 1 := by
  simp [utf8Bytes]

/-- `decode_unicode_char` writes no more than the escape that it takes out. -/
theorem Refines.attemptDecoding {xs : List Byte} {rest : Block Byte}
    (h : m.Refines { jc with parseBuffer := xs })
    (hbuffer : m.parseBuffer = xs.map some ++ some 0 :: rest) (hroom : 4 ≤ rest.length)
    (hxs : jc.parseBuffer.take (jc.parseBuffer.length - 6) = xs) :
    ∃ r, m.attemptDecoding ((jc.parseBuffer.drop (jc.parseBuffer.length - 4)).foldl
        (fun uc c => 16 * uc + hexValue c) 0) = some r ∧
      Option.Rel Refines r jc.decodeUnicodeChar := by
  have hwrite : ∀ (uc surrogate trailBytes : Nat), trailBytes < 4 → ∃ m',
      { m with utf16HighSurrogate := surrogate }.writeUtf8 (utf8Bytes uc trailBytes) = some m' ∧
      m'.Refines { jc with
        utf16HighSurrogate := surrogate, parseBuffer := xs ++ utf8Bytes uc trailBytes } := by
    intro uc surrogate trailBytes hlt
    obtain ⟨rest', hwrite⟩ := @writeUtf8_eq { m with utf16HighSurrogate := surrogate } xs
      (utf8Bytes uc trailBytes) (some 0 :: rest) hbuffer h.count
      (by simp only [length_utf8Bytes, List.length_cons]; omega)
    exact ⟨_, hwrite, h.state, h.type, h.escaped, rfl, rfl, ⟨rest', rfl⟩, h.top, h.stack, h.room⟩
  have hsurrogate : m.utf16HighSurrogate = jc.utf16HighSurrogate := h.surrogate
  have hplain : ∀ (uc trailBytes : Nat), trailBytes < 4 → ∃ r,
      (m.writeUtf8 (utf8Bytes uc trailBytes)).map some = some r ∧
      Option.Rel Refines r (some { jc with parseBuffer := xs ++ utf8Bytes uc trailBytes }) := by
    intro uc trailBytes hlt
    obtain ⟨m', hm', hrefines⟩ := hwrite uc m.utf16HighSurrogate trailBytes hlt
    rw [hsurrogate] at hrefines
    exact ⟨some m', congrArg (Option.map some) hm', .some hrefines⟩
  simp only [JsonParserStruct.attemptDecoding, JsonParser.decodeUnicodeChar, hxs, hsurrogate]
  generalize (jc.parseBuffer.drop (jc.parseBuffer.length - 4)).foldl
    (fun uc c => 16 * uc + hexValue c) 0 = uc
  by_cases hhigh : jc.utf16HighSurrogate ≠ 0
  · rw [if_pos hhigh, if_pos hhigh]
    by_cases hlow : uc &&& 0xFC00 = 0xDC00
    · rw [if_pos hlow, if_pos hlow]
      obtain ⟨m', hm', hrefines⟩ := hwrite _ 0 3 (by decide)
      exact ⟨some m', congrArg (Option.map some) hm', .some hrefines⟩
    · rw [if_neg hlow, if_neg hlow]
      exact ⟨none, rfl, .none⟩
  · rw [if_neg hhigh, if_neg hhigh]
    by_cases hone : uc < 0x80
    · rw [if_pos hone, if_pos hone]
      exact hplain uc 0 (by decide)
    by_cases htwo : uc < 0x800
    · rw [if_neg hone, if_pos htwo, if_neg hone, if_pos htwo]
      exact hplain uc 1 (by decide)
    by_cases hpair : uc &&& 0xFC00 = 0xD800
    · rw [if_neg hone, if_neg htwo, if_pos hpair, if_neg hone, if_neg htwo, if_pos hpair]
      exact ⟨_, rfl, .some ⟨h.state, h.type, h.escaped, rfl, h.count, h.buffer, h.top, h.stack,
        h.room⟩⟩
    by_cases hlow : uc &&& 0xFC00 = 0xDC00
    · rw [if_neg hone, if_neg htwo, if_neg hpair, if_pos hlow, if_neg hone, if_neg htwo,
        if_neg hpair, if_pos hlow]
      exact ⟨none, rfl, .none⟩
    · rw [if_neg hone, if_neg htwo, if_neg hpair, if_neg hlow, if_neg hone, if_neg htwo,
        if_neg hpair, if_neg hlow]
      exact hplain uc 2 (by decide)

theorem Refines.decodeUnicodeChar (h : m.Refines jc) {xs : List Byte} {p q a b c d : Byte}
    (hjc : jc.parseBuffer = xs ++ [p, q, a, b, c, d])
    (hdigits : ∀ x ∈ [a, b, c, d], hexValue x < 16) :
    ∃ r, m.decodeUnicodeChar = some r ∧ Option.Rel Refines r jc.decodeUnicodeChar := by
  obtain ⟨rest, hbuffer⟩ := h.buffer
  have hcount : m.parseBufferCount = xs.length + 6 := by simp [h.count, hjc]
  have hcells : m.parseBuffer = (xs ++ [p, q] ++ [a, b, c, d]).map some ++ some 0 :: rest := by
    simp [hbuffer, hjc]
  have hhex := readHex_eq hcells (hdigits a (by simp)) (hdigits b (by simp)) (hdigits c (by simp))
    (hdigits d (by simp))
  have hfour : jc.parseBuffer.drop (jc.parseBuffer.length - 4) = [a, b, c, d] := by
    rw [hjc]
    simp [List.drop_append]
  have hfront : jc.parseBuffer.take (jc.parseBuffer.length - 6) = xs := by
    rw [hjc]
    simp
  let cells : Block Byte := [q, a, b, c, d].map some ++ some 0 :: rest
  have hterminate : { m with parseBufferCount := m.parseBufferCount - 6 }.terminate =
      some { m with
        parseBuffer := xs.map some ++ some 0 :: cells, parseBufferCount := xs.length } := by
    have hstore := Block.store_append xs 0 (some p) cells
    have hwhole : m.parseBuffer = xs.map some ++ some p :: cells := by simp [hbuffer, hjc, cells]
    rw [← hwhole] at hstore
    simp [terminate, hcount, hstore]
  have hpos : m.parseBufferCount ≥ 6 := by omega
  have hindex : m.parseBufferCount - 4 = (xs ++ [p, q]).length := by simp [hcount]
  obtain ⟨r, hr, hrel⟩ := (h.withBuffer xs cells m.isStatic).attemptDecoding rfl
    (by simp [cells]) hfront
  rw [hfour] at hr
  refine ⟨r, ?_, hrel⟩
  simp only [JsonParserStruct.decodeUnicodeChar, assert_of hpos, hindex, hhex, hterminate,
    Option.bind_eq_bind, Option.bind_some, hr]

theorem Refines.withEscaped (h : m.Refines jc) (escaped : Bool) :
    { m with escaped }.Refines { jc with escaped } :=
  ⟨h.state, h.type, rfl, h.surrogate, h.count, h.buffer, h.top, h.stack, h.room⟩

theorem Refines.withState (h : m.Refines jc) (state : JsonState) :
    { m with state }.Refines { jc with state } :=
  ⟨rfl, h.type, h.escaped, h.surrogate, h.count, h.buffer, h.top, h.stack, h.room⟩

theorem Refines.withType (h : m.Refines jc) (type : JsonType) :
    { m with type }.Refines { jc with type } :=
  ⟨h.state, rfl, h.escaped, h.surrogate, h.count, h.buffer, h.top, h.stack, h.room⟩

theorem Refines.addEscapedChar (h : m.Refines jc) (hne : jc.parseBuffer ≠ []) (c : Byte) :
    ∃ r, m.addEscapedChar c = some r ∧ Option.Rel Refines r (jc.addEscapedChar c) := by
  obtain ⟨m₁, hpop, hrefines⟩ := (h.withEscaped false).popBack hne
  have hone : ∀ b : Byte, ∃ r, (m₁.pushBack b).map some = some r ∧
      Option.Rel Refines r (some ({ jc with escaped := false }.popBack.pushBack b)) := by
    intro b
    obtain ⟨m₂, hpush, hrefines'⟩ := hrefines.pushBack b
    exact ⟨some m₂, by simp [hpush], .some hrefines'⟩
  simp only [JsonParserStruct.addEscapedChar, JsonParser.addEscapedChar, hpop,
    Option.bind_eq_bind, Option.bind_some]
  generalize c.toNat = n
  split
  case h_9 =>
    obtain ⟨m₂, hpush, hrefines'⟩ := hrefines.pushBack 92
    obtain ⟨m₃, hpush', hrefines''⟩ := hrefines'.pushBack 117
    exact ⟨some m₃, by simp [hpush, hpush'], .some hrefines''⟩
  case h_10 =>
    refine ⟨none, rfl, ?_⟩
    try split
    all_goals first | contradiction | exact .none
  all_goals exact hone _

theorem Refines.addChar (h : m.Refines jc) (hne : jc.escaped = true → jc.parseBuffer ≠ [])
    (c : Byte) (class' : JsonClass) :
    ∃ r, m.addChar c class' = some r ∧ Option.Rel Refines r (jc.addChar c class') := by
  unfold JsonParserStruct.addChar JsonParser.addChar
  rw [h.escaped, h.type]
  by_cases hescaped : jc.escaped = true
  · rw [if_pos hescaped, if_pos hescaped]
    exact h.addEscapedChar (hne hescaped) c
  · rw [if_neg hescaped, if_neg hescaped]
    split
    next =>
      obtain ⟨m', hpush, hrefines⟩ := h.pushBack c
      exact ⟨some m', by simp [hpush], .some hrefines⟩
    next => exact ⟨some m, rfl, .some h⟩

end JsonParserStruct

end Tnode
