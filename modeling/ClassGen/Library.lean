import ClassGen.Instr.Basic

/-! The host classes and members that generated code names. Lists are held in a
wrapper that carries the name of its element type beside the backing list. -/

namespace ClassGen.Library

def object : String := "java/lang/Object"
def string : String := "java/lang/String"
def stringBuilder : String := "java/lang/StringBuilder"
def iterator : String := "java/util/Iterator"
def iterable : String := "java/lang/Iterable"
def arrayList : String := "java/util/ArrayList"
def listWrapper : String := "ixion/runtime/ListWrapper"
def illegalState : String := "java/lang/IllegalStateException"

/-- Name of every constructor. -/
def constructor : String := "<init>"
/-- Name of the static initializer. -/
def classInit : String := "<clinit>"

/-- Descriptor of a reference to `className`. -/
def reference (className : String) : String := "L" ++ className ++ ";"

def objectInit : Member := ⟨object, constructor, "()V"⟩
def illegalStateInit : Member := ⟨illegalState, constructor, "(Ljava/lang/String;)V"⟩

def wrapperInit : Member := ⟨listWrapper, constructor, "(Ljava/lang/String;)V"⟩
/-- Backing list of a wrapper. -/
def wrapperList : Member := ⟨listWrapper, "list", "()Ljava/util/ArrayList;"⟩
/-- Element type name of a wrapper. -/
def wrapperName : Member := ⟨listWrapper, "name", "()Ljava/lang/String;"⟩

def listAdd : Member := ⟨arrayList, "add", "(Ljava/lang/Object;)Z"⟩
def listIterator : Member := ⟨arrayList, "iterator", "()Ljava/util/Iterator;"⟩
def iterableIterator : Member := ⟨iterable, "iterator", "()Ljava/util/Iterator;"⟩
def iteratorHasNext : Member := ⟨iterator, "hasNext", "()Z"⟩
def iteratorNext : Member := ⟨iterator, "next", "()Ljava/lang/Object;"⟩

def stringEquals : Member := ⟨string, "equals", "(Ljava/lang/Object;)Z"⟩
/-- Equality that accepts null. -/
def objectsEquals : Member :=
  ⟨"java/util/Objects", "equals", "(Ljava/lang/Object;Ljava/lang/Object;)Z"⟩

def builderInit : Member := ⟨stringBuilder, constructor, "()V"⟩
def builderInitText : Member := ⟨stringBuilder, constructor, "(Ljava/lang/String;)V"⟩
/-- The append overload that takes a value of descriptor `param`. -/
def builderAppend (param : String) : Member :=
  ⟨stringBuilder, "append", "(" ++ param ++ ")Ljava/lang/StringBuilder;"⟩
def builderToString : Member := ⟨stringBuilder, "toString", "()Ljava/lang/String;"⟩

end ClassGen.Library
