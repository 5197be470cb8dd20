import HostScript.Host.Lang

/-!
# The package `ui`

A small toolkit of host classes: buttons that tell their listeners about clicks, a class with
overloaded methods, and interfaces that scripts can implement.
-/

set_option autoImplicit false

namespace HostScript.Toolkit

open Lang

/-- A button with a label, a number of clicks, and its listeners as items. -/
def button (label : String) (clicks : Int32) (listeners : List Value) : HostObject where
  className := "ui.Button"
  sort := "button"
  slots := { entries := [("label", .text label), ("clicks", .int clicks)] }
  items := listeners

/-- The label of a button. -/
def labelOf (o : HostObject) : String := ((o.slots.get? "label").bind Value.text?).getD ""

/-- The number of clicks on a button. -/
def clicksOf (o : HostObject) : Int32 :=
  match o.slots.get? "clicks" with
  | some (.primitive (.int n)) => n
  | _ => 0

/-- Goes on with the receiver, which has to be a button. -/
def onButton (receiver : Option Value) (next : Value → HostObject → Action) : Action :=
  let refuse := Action.raise "receiver is not a button"
  match receiver with
  | none => refuse
  | some object => .inspect object fun found =>
    match found with
    | some o => if o.sort == "button" then next object o else refuse
    | none => refuse

/-- Tells listeners about a click, one after the other. -/
def tell : List Value → Action
  | [] => .done .void
  | listener :: rest =>
    .notify listener "actionPerformed" [.text "click"] fun reply =>
      match reply with
      | .notScripted => .raise "listener is not scripted"
      | .failed message => .raise message
      | .answered _ => tell rest

/-- The class of buttons. -/
def buttonClass : HostClass where
  name := "ui.Button"
  constructors := [
    .makeConstructor "ui.Button" [.text] fun args =>
      .create (button ((args.head?.bind Value.text?).getD "") 0 [])]
  fields := [
    { name := "label"
      read := fun receiver => onButton receiver fun _ o => .done (.text (labelOf o))
      write := some fun receiver value => onButton receiver fun object o =>
        .textOf none value fun label =>
          .update object (button label (clicksOf o) o.items) (.done .void) }]
  methods := [
    method "addActionListener" [.named "ui.ActionListener"] fun receiver args =>
      onButton receiver fun object o =>
        .update object (button (labelOf o) (clicksOf o) (o.items ++ args.take 1)) (.done .void),
    method "click" [] fun receiver _ => onButton receiver fun object o =>
      .keep o.items
        (.update object (button (labelOf o) (clicksOf o + 1) o.items) (tell o.items)),
    method "getClicks" [] fun receiver _ => onButton receiver fun _ o => returnInt (clicksOf o),
    method "fail" [.text] fun _ args =>
      .textOf none (args.headD .null) fun text => .raise s!"boom: {text}"]

/-- A static method that returns a fixed text. -/
def telling (name : String) (params : List ValueType) (text : String) : HostMethod :=
  staticMethod name params fun _ => .done (.text text)

/-- A class whose overloads tell which of them was called. -/
def greeterClass : HostClass where
  name := "ui.Greeter"
  fields := [.constant "GREETING" (.text "hello")]
  methods := [
    telling "describe" [intType] "int",
    telling "describe" [longType] "long",
    telling "describe" [doubleType] "double",
    telling "describe" [.text] "String",
    telling "describe" [.object] "Object",
    telling "pick" [intType, longType] "int,long",
    telling "pick" [longType, intType] "long,int",
    { telling "secret" [] "hidden" with accessible := false }]

/-- An interface with one method. -/
def interfaceOf (name : String) (supertypes : List String) (methodName : String)
    (params : List ValueType) : HostClass where
  name
  isInterface := true
  supertypes
  methods := [{ name := methodName, params }]

/-- The classes of the package in the order of registration. -/
def classes : List HostClass := [
  buttonClass,
  greeterClass,
  interfaceOf "ui.ActionListener" [] "actionPerformed" [.object],
  interfaceOf "ui.ClickListener" [] "onClick" [.object],
  interfaceOf "ui.Runnable" [] "run" [],
  interfaceOf "ui.Task" ["ui.Runnable"] "name" []]

end HostScript.Toolkit
