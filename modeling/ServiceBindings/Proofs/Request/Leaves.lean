import Mathlib.Data.List.Nodup
import ServiceBindings.Proofs.Form
import ServiceBindings.Proofs.Plan.Bindings
import ServiceBindings.Proofs.Response.Body
import ServiceBindings.Proofs.Text.Digits

/-! The body of a form holds the texts of a record, each under the path that leads to it. -/
namespace ServiceBindings.Request
open Plan (Binding Call Target)

/-- A text inside a record, if it can be written, with the names and positions that lead to it. -/
structure Leaf where
  path : List String
  text? : Option String
deriving DecidableEq

/-- The text that a value without parts has by itself. Instants are written in a format, which is
that of dates with times unless one is given. -/
def plainText? (format : Option Time.Format) : Value → Option String
  | .string s => some s
  | .boolean true => some "true"
  | .boolean false => some "false"
  | .integer i => some (Text.integer i)
  | .float x => some (Number.float x).text
  | .timestamp t => Time.format? t (format.getD .dateTime)
  | .blob bytes => some (Text.Base64.encode bytes)
  | .stream _ | .list _ | .map _ | .structure _ _ => none

mutual

/-- The texts of a value at a path, in order. Items and entries are counted from one. -/
def leaves (path : List String) (value : Value) : Target → List Leaf
  | .structure _ members =>
    match value with
    | .structure _ fields => memberLeaves path fields members
    | _ => []
  | .list _ item itemName flattened =>
    match value with
    | .list items =>
      let start := if flattened then path else path ++ [Plan.itemElement itemName]
      (items.zipIdx 1).flatMap fun (value, position) =>
        leaves (start ++ [Text.natural position]) value item
    | _ => []
  | .map _ _ target keyName valueName flattened =>
    match value with
    | .map entries =>
      let start := if flattened then path else path ++ ["entry"]
      (entries.zipIdx 1).flatMap fun ((key, value), position) =>
        let entry := start ++ [Text.natural position]
        ⟨entry ++ [Plan.keyElement keyName], some key⟩ ::
          leaves (entry ++ [Plan.valueElement valueName]) value target
    | _ => []
  | .scalar _ format _ => [⟨path, plainText? format value⟩]
  | .enumeration _ => [⟨path, plainText? none value⟩]

def memberLeaves (path : List String) (fields : Fields Value) :
    List (Binding × Target) → List Leaf
  | [] => []
  | (binding, target) :: rest =>
    match Fields.get? fields binding.name with
    | some value =>
      leaves (path ++ [binding.wireName]) value target ++ memberLeaves path fields rest
    | none => memberLeaves path fields rest

end

/-- The texts of a form's body: the action, the version and those of the members it carries. -/
def bodyLeaves (call : Call) (record : Record) : List Leaf :=
  ⟨["Action"], some call.name⟩ :: ⟨["Version"], some call.service.apiVersion⟩ ::
    memberLeaves [] record.fields (call.input.membersAt .body)

def dotted (path : List String) : String :=
  ".".intercalate path

/-- A pair is that of a text: it has the text under its written path. -/
structure Leaf.Writes (leaf : Leaf) (pair : String × String) : Prop where
  name : pair.1 = dotted leaf.path
  text : leaf.text? = some pair.2

theorem dotted_concat {path : List String} (h : path ≠ []) (part : String) :
    dotted (path ++ [part]) = Form.within (dotted path) part := by
  rw [dotted, dotted, Form.within, String.intercalate_append_of_ne_nil h (List.cons_ne_nil _ _),
    String.intercalate_singleton]

theorem dotted_counted {path : List String} (h : path ≠ []) (flattened : Bool) (part : String) :
    Form.counted (dotted path) (if flattened then none else some part) =
      dotted (if flattened then path else path ++ [part]) := by
  cases flattened with
  | true => rfl
  | false => exact (dotted_concat h part).symm

def formatOf : Target → Option Time.Format
  | .scalar _ format _ => format
  | _ => none

/-- What is written for a value is the text that the value has by itself. -/
theorem plainText?_of_scalarText {path text : String} {target : Target} {value : Value}
    (h : scalarText .dateTime path target value = .ok text) :
    plainText? (formatOf target) value = some text := by
  unfold scalarText at h
  split at h
  case h_7 format _ t =>
    unfold instantText at h
    split at h
    · next hformat =>
      obtain rfl := Except.ok.inj h
      exact hformat
    · cases h
  case h_3 b =>
    obtain rfl := Except.ok.inj h
    cases b <;> rfl
  case h_9 => cases h
  all_goals
    obtain rfl := Except.ok.inj h
    rfl

/-- The pairs of a node are those of the texts of a value, wherever they are. -/
def Carries (target : Target) (value : Value) (node : Form.Node) : Prop :=
  ∀ path ≠ [], List.Forall₂ Leaf.Writes (leaves path value target) (node.pairs (dotted path))

theorem forall₂_of_eachItem {f : String → Value → Except Error Form.Node} {path : String}
    {position : Nat} {items : List Value} {nodes : List Form.Node}
    (h : eachItem (fun path value => return [← f path value]) path position items = .ok nodes) :
    List.Forall₂ (fun value node => ∃ path, f path value = .ok node) items nodes := by
  induction items generalizing position nodes with
  | nil =>
    obtain rfl := Except.ok.inj h
    exact .nil
  | cons item rest ih =>
    rw [eachItem, bind_eq_ok] at h
    obtain ⟨written, hwritten, h⟩ := h
    obtain ⟨node, hnode, hwritten⟩ := bind_eq_ok.1 hwritten
    obtain ⟨others, hothers, h⟩ := bind_eq_ok.1 h
    obtain rfl := Except.ok.inj hwritten
    obtain rfl := Except.ok.inj h
    exact .cons ⟨_, hnode⟩ (ih hothers)

theorem forall₂_of_eachEntry {f : String → Value → Except Error Form.Node} {path : String}
    {entries : List (String × Value)} {nodes : List (String × Form.Node)}
    (h : eachEntry (fun key path value => return [(key, ← f path value)]) path entries =
      .ok nodes) :
    List.Forall₂ (fun entry node => node.1 = entry.1 ∧ ∃ path, f path entry.2 = .ok node.2)
      entries nodes := by
  induction entries generalizing nodes with
  | nil =>
    obtain rfl := Except.ok.inj h
    exact .nil
  | cons entry rest ih =>
    rw [eachEntry, bind_eq_ok] at h
    obtain ⟨written, hwritten, h⟩ := h
    obtain ⟨node, hnode, hwritten⟩ := bind_eq_ok.1 hwritten
    obtain ⟨others, hothers, h⟩ := bind_eq_ok.1 h
    obtain rfl := Except.ok.inj hwritten
    obtain rfl := Except.ok.inj h
    exact .cons ⟨rfl, _, hnode⟩ (ih hothers)

theorem forall₂_itemPairs {target : Target} {items : List Value} {nodes : List Form.Node}
    (h : List.Forall₂ (Carries target) items nodes) {path : List String} (hpath : path ≠ [])
    (position : Nat) :
    List.Forall₂ Leaf.Writes
      ((items.zipIdx position).flatMap fun (value, position) =>
        leaves (path ++ [Text.natural position]) value target)
      (Form.itemPairs (dotted path) position nodes) := by
  induction h generalizing position with
  | nil => exact .nil
  | cons hitem _ ih =>
    rw [List.zipIdx_cons, List.flatMap_cons, Form.itemPairs, ← dotted_concat hpath]
    apply List.rel_append
    · exact hitem _ (List.concat_ne_nil _ _)
    · exact ih (position + 1)

theorem forall₂_entryPairs {target : Target} {entries : List (String × Value)}
    {nodes : List (String × Form.Node)}
    (h : List.Forall₂ (fun entry node => node.1 = entry.1 ∧ Carries target entry.2 node.2)
      entries nodes)
    {path : List String} (hpath : path ≠ []) (keyName valueName : String) (position : Nat) :
    List.Forall₂ Leaf.Writes
      ((entries.zipIdx position).flatMap fun ((key, value), position) =>
        let entry := path ++ [Text.natural position]
        ⟨entry ++ [keyName], some key⟩ :: leaves (entry ++ [valueName]) value target)
      (Form.entryPairs (dotted path) keyName valueName position nodes) := by
  induction h generalizing position with
  | nil => exact .nil
  | @cons entry node _ _ hentry _ ih =>
    obtain ⟨hkey, hvalue⟩ := hentry
    have hstart := List.concat_ne_nil (Text.natural position) path
    rw [List.zipIdx_cons, List.flatMap_cons, Form.entryPairs]
    dsimp only
    rw [← dotted_concat hpath, ← dotted_concat hstart, ← dotted_concat hstart]
    apply List.Forall₂.cons
    · exact ⟨rfl, congrArg some hkey.symm⟩
    · apply List.rel_append
      · exact hvalue _ (List.concat_ne_nil _ _)
      · exact ih (position + 1)

theorem fieldPairs_eq_flatMap {path : List String} (h : path ≠ [])
    (nodes : List (String × Form.Node)) :
    Form.fieldPairs (dotted path) nodes =
      nodes.flatMap fun field => field.2.pairs (dotted (path ++ [field.1])) := by
  induction nodes with
  | nil => rfl
  | cons field rest ih => rw [Form.fieldPairs, List.flatMap_cons, ih, dotted_concat h]

theorem carries_scalarText {path : String} {target : Target} {value : Value} {node : Form.Node}
    (hsimple : target.IsSimple)
    (h : (scalarText .dateTime path target value).map .text = .ok node) :
    Carries target value node := by
  obtain ⟨text, htext, rfl⟩ := map_eq_ok.1 h
  intro segments _
  have hwrites : Leaf.Writes ⟨segments, plainText? (formatOf target) value⟩
      (dotted segments, text) := ⟨rfl, plainText?_of_scalarText htext⟩
  cases target with
  | scalar | enumeration => exact .cons hwrites .nil
  | list | map | «structure» => exact hsimple.elim

mutual

/-- A value that is written becomes its texts. -/
theorem carries_formNode {path : String} {value : Value} {node : Form.Node} (target : Target)
    (h : formNode path value target = .ok node) : Carries target value node := by
  cases target with
  | scalar | enumeration => exact carries_scalarText trivial h
  | list shape item itemName flattened =>
    unfold formNode at h
    split at h
    · next items =>
      obtain ⟨nodes, hnodes, h⟩ := bind_eq_ok.1 h
      obtain rfl := Except.ok.inj h
      have hitems : List.Forall₂ (Carries item) items nodes :=
        (forall₂_of_eachItem hnodes).imp fun _ _ ⟨_, hnode⟩ => carries_formNode item hnode
      intro segments hsegments
      rw [Form.Node.pairs, dotted_counted hsegments]
      apply forall₂_itemPairs hitems
      split_ifs
      · exact hsegments
      · exact List.concat_ne_nil _ _
    · cases h
  | map shape key target keyName valueName flattened =>
    unfold formNode at h
    split at h
    · next entries =>
      obtain ⟨nodes, hnodes, h⟩ := bind_eq_ok.1 h
      obtain rfl := Except.ok.inj h
      have hentries : List.Forall₂
          (fun entry node => node.1 = entry.1 ∧ Carries target entry.2 node.2) entries nodes :=
        (forall₂_of_eachEntry hnodes).imp fun _ _ ⟨hkey, _, hnode⟩ =>
          ⟨hkey, carries_formNode target hnode⟩
      intro segments hsegments
      rw [Form.Node.pairs, dotted_counted hsegments]
      apply forall₂_entryPairs hentries
      split_ifs
      · exact hsegments
      · exact List.concat_ne_nil _ _
    · cases h
  | «structure» heading members =>
    unfold formNode at h
    split at h
    · obtain ⟨nodes, hnodes, rfl⟩ := map_eq_ok.1 h
      intro segments hsegments
      rw [Form.Node.pairs, fieldPairs_eq_flatMap hsegments]
      exact forall₂_formFields members hnodes segments
    · cases h

/-- The members that are present become their texts. -/
theorem forall₂_formFields {path : String} {fields : Fields Value}
    {nodes : List (String × Form.Node)} (members : List (Binding × Target))
    (h : formFields path fields members = .ok nodes) (segments : List String) :
    List.Forall₂ Leaf.Writes (memberLeaves segments fields members)
      (nodes.flatMap fun field => field.2.pairs (dotted (segments ++ [field.1]))) := by
  match members with
  | [] =>
    obtain rfl := Except.ok.inj h
    exact .nil
  | (binding, target) :: rest =>
    rw [formFields] at h
    rw [memberLeaves]
    split at h
    · next hvalue =>
      rw [hvalue]
      exact forall₂_formFields rest h segments
    · next value hvalue =>
      obtain ⟨node, hnode, h⟩ := bind_eq_ok.1 h
      obtain ⟨others, hothers, h⟩ := bind_eq_ok.1 h
      obtain rfl := Except.ok.inj h
      rw [hvalue, List.flatMap_cons]
      apply List.rel_append
      · exact carries_formNode target hnode _ (List.concat_ne_nil _ _)
      · exact forall₂_formFields rest hothers segments

end

end ServiceBindings.Request
