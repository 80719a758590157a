import Tnode.MessageParser

namespace Tnode

/-- Two runtimes that differ at most in the order in which they visit tables of size `n` and
more. -/
structure AgreeBelow (n : Nat) (lua lua' : Lua) : Prop where
  next : ∀ t : LuaTable, sizeOf t < n → lua.next t = lua'.next t
  num2str : lua.num2str = lua'.num2str
  strscan : lua.strscan = lua'.strscan

theorem AgreeBelow.readScalar {n : Nat} {lua lua' : Lua} (h : AgreeBelow n lua lua')
    (type : CppType) (v : LuaValue) : readScalar lua type v = readScalar lua' type v := by
  have hint : lua.tointeger v = lua'.tointeger v := by
    cases v <;> simp [Lua.tointeger, h.strscan]
  have hnum : lua.tonumber v = lua'.tonumber v := by
    cases v <;> simp [Lua.tonumber, h.strscan]
  have hstr : lua.tostring v = lua'.tostring v := by
    cases v <;> simp [Lua.tostring, h.num2str]
  simp only [Tnode.readScalar, hint, hnum, hstr]

/-- Encoding a value looks at no table larger than it. -/
theorem AgreeBelow.encodeValue {n : Nat} {lua lua' : Lua} (h : AgreeBelow n lua lua')
    (pool : DescriptorPool) {type : CppType} {v : LuaValue} (hv : sizeOf v < n) :
    encodeValue lua pool type v = encodeValue lua' pool type v := by
  refine (encodeDescriptor.mutual_induct lua pool
    (fun ty o => sizeOf o < n → encodeDescriptor lua pool ty o = encodeDescriptor lua' pool ty o)
    (fun t before fields m => sizeOf t < n →
      encodeFields lua pool t before fields m = encodeFields lua' pool t before fields m)
    (fun t field => sizeOf t < n → encodeField lua pool t field = encodeField lua' pool t field)
    (fun type v => sizeOf v < n →
      Tnode.encodeValue lua pool type v = Tnode.encodeValue lua' pool type v)
    (fun type elements => sizeOf elements < n →
      encodeFieldRepeated lua pool type elements = encodeFieldRepeated lua' pool type elements)
    ?_ ?_ ?_ ?_ ?_ ?_ ?_ ?_ ?_ ?_ ?_ ?_ ?_).2.2.2.1 type v hv
  · intro ty t ih hlt
    simp only [LuaValue.table.sizeOf_spec] at hlt
    rw [encodeDescriptor, encodeDescriptor, ih (by omega)]
  · intro ty o ho _
    cases o with
    | table t => exact absurd rfl (ho t)
    | _ => rw [encodeDescriptor, encodeDescriptor] <;> exact fun t ht => by cases ht
  · intro t before m _
    rw [encodeFields, encodeFields]
  · intro t before m field behind ih ih' hlt
    rw [encodeFields, encodeFields, ih hlt]
    cases encodeField lua' pool t field with
    | error e => rfl
    | ok values => exact ih' values hlt
  · intro t field hr elements hget ih hlt
    have hle := sizeOf_gettable_le t (.string field.name)
    rw [hget, LuaValue.table.sizeOf_spec] at hle
    rw [encodeField_repeated hr hget, encodeField_repeated hr hget,
      ih (by rw [sizeOf_perm (lua.next_perm elements)]; omega), h.next elements (by omega)]
  · intro t field hr hget _
    rw [encodeField_noTable hr hget, encodeField_noTable hr hget]
  · intro t field hr hget _
    rw [encodeField_unset (by simpa using hr) hget, encodeField_unset (by simpa using hr) hget]
  · intro t field hr hget ih hlt
    have hle := sizeOf_gettable_le t (.string field.name)
    rw [encodeField_set (by simpa using hr) hget, encodeField_set (by simpa using hr) hget,
      ih (by omega)]
  · intro v ty ih hlt
    rw [Tnode.encodeValue, Tnode.encodeValue, ih hlt]
  · intro type v hty _
    rw [Tnode.encodeValue, Tnode.encodeValue, h.readScalar]
    · exact hty
    · exact hty
  · intro type _
    rw [encodeFieldRepeated, encodeFieldRepeated]
  · intro type k v elements hv ih hlt
    simp only [List.cons.sizeOf_spec] at hlt
    rw [encodeFieldRepeated, encodeFieldRepeated, if_pos hv, if_pos hv, ih (by omega)]
  · intro type k v elements hv ih ih' hlt
    simp only [List.cons.sizeOf_spec, Prod.mk.sizeOf_spec] at hlt
    rw [encodeFieldRepeated, encodeFieldRepeated, if_neg hv, if_neg hv, ih (by omega),
      ih' (by omega)]

section

open Classical in
/-- A runtime that visits the table `t` in the order `t'`, and every other one as before. -/
noncomputable def Lua.visiting (lua : Lua) (t t' : LuaTable) (h : t'.Perm t) : Lua :=
  { lua with
    next := fun u => if u = t then t' else lua.next u
    next_perm := by
      intro u
      split
      next hu => rw [hu]; exact h
      next => exact lua.next_perm u }

theorem visiting_next (lua : Lua) {t t' : LuaTable} (h : t'.Perm t) :
    (lua.visiting t t' h).next t = t' := if_pos rfl

theorem agreeBelow_visiting (lua : Lua) {t t' : LuaTable} (h : t'.Perm t) :
    AgreeBelow (sizeOf t) lua (lua.visiting t t' h) where
  next := by
    intro u hu
    have hne : u ≠ t := fun he => absurd hu (by simp [he])
    exact (if_neg hne).symm
  num2str := rfl
  strscan := rfl

end

end Tnode
