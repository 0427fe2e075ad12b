import JavaClass.Constant.Table
import JavaClass.Proofs.Bytes.Failures

/-!
# Constants that are not found

Looking up what a slot of a table of constants refers to fails only because
something is malformed.
-/

namespace JavaClass.ConstantTable

variable (table : ConstantTable) (slot : UInt16)

theorem blames_get : Blames (table.get slot) := by
  unfold get
  split
  · exact failsOnly_ok _
  · exact blames_malformed _

theorem blames_text : Blames (table.text slot) := by
  apply (table.blames_get slot).bind
  intro found
  split
  · exact failsOnly_ok _
  · exact blames_malformed _

theorem blames_className : Blames (table.className slot) := by
  apply (table.blames_get slot).bind
  intro found
  split
  · exact table.blames_text _
  · exact blames_malformed _

theorem blames_nameAndType : Blames (table.nameAndType slot) := by
  apply (table.blames_get slot).bind
  intro found
  split
  · exact (table.blames_text _).bind fun _ => (table.blames_text _).bind fun _ => failsOnly_ok _
  · exact blames_malformed _

theorem blames_memberOf (member : UInt16) (isInterface : Bool) :
    Blames (table.memberOf slot member isInterface) :=
  (table.blames_className slot).bind fun _ =>
    (table.blames_nameAndType member).bind fun _ => failsOnly_ok _

theorem blames_member : Blames (table.member slot) := by
  apply (table.blames_get slot).bind
  intro found
  split
  · exact table.blames_memberOf _ _ _
  · exact table.blames_memberOf _ _ _
  · exact blames_malformed _

theorem blames_callSite : Blames (table.callSite slot) := by
  apply (table.blames_get slot).bind
  intro found
  split
  · exact (table.blames_nameAndType _).bind fun _ => failsOnly_ok _
  · exact blames_malformed _

end JavaClass.ConstantTable
