-- SUMMARY: A new environment: the message types that descriptor files are read with, as the library describes them to itself.
import HdClient.Pbc.Register

/-! # The library's own types

`bootstrap.c` puts the types of descriptor files into a new environment, from a
description of them that comes with the library. -/

namespace Pbc

/-- `struct field_t`; no default that is a real number is used. -/
structure FieldT where
  name : CStr
  id : ℤ
  label : Label
  type : PType
  type_name : CStr
  default_integer : BitVec 32
  default_string : List UInt8

namespace FieldT

def plain (name : String) (id : ℤ) (label : Label) (type : PType) : FieldT :=
  ⟨lit name, id, label, type, [], 0, []⟩

def typed (name : String) (id : ℤ) (label : Label) (type : PType) (type_name : String) : FieldT :=
  ⟨lit name, id, label, type, lit type_name, 0, []⟩

/-- A field with a default; the zero that ends it counts. -/
def described (name : String) (id : ℤ) (label : Label) (type : PType)
    (type_name default_string : String) : FieldT :=
  ⟨lit name, id, label, type, lit type_name, 0, lit default_string ++ [0]⟩

/-- The field that is pushed, whose default `set_default` chooses. -/
def toField (f : FieldT) : Field where
  id := f.id
  name := f.name
  type := f.type
  label := f.label
  default_v := match f.type with
    | .double | .float => .real
    | .string | .enum => .str f.default_string
    -- the high word is left as it was
    | _ => .integer ⟨f.default_integer, 0⟩
  type_name := .n f.type_name

end FieldT

/-- `struct file_t`, with the parts of each message type and of each enum together. -/
structure FileT where
  name : CStr
  messages : List (CStr × List FieldT)
  enums : List (CStr × List (ℤ × CStr))

/-- `set_enums` -/
def setEnums : List (CStr × List (ℤ × CStr)) → Env → Option Env
  | [], p => some p
  | (name, table) :: enums, p => do
      let p ← pushEnum p name table
      setEnums enums p

/-- The loop of `set_msg_one`. -/
def setMsgFields (name : CStr) : List FieldT → Env → Queue → Option (Env × Queue)
  | [], p, queue => some (p, queue)
  | f :: fields, p, queue => do
      let (p, queue) ← pushMessage p name .pool f.toField queue
      setMsgFields name fields p queue

/-- `set_msgs` -/
def setMsgs : List (CStr × List FieldT) → Env → Queue → Option (Env × Queue)
  | [], p, queue => some (p, queue)
  | (name, fields) :: msgs, p, queue => do
      let (p, queue) ← setMsgFields name fields p queue
      let p ← initMessage p name .pool
      setMsgs msgs p queue

/-- `register_internal`; the library's own file is registered without a pool. -/
def registerInternal (p : Env) (file : FileT) : Option Env := do
  let p := p.addFile file.name none
  let p ← setEnums file.enums p
  let (p, queue) ← setMsgs file.messages p []
  resolveFields queue p

/-- `pbc_descriptor`, unpacked. -/
def pbcDescriptor : FileT where
  name := lit "descriptor"
  messages := [
    (lit "google.protobuf.FileDescriptorSet",
      [.typed "file" 1 .repeated .message "google.protobuf.FileDescriptorProto"]),
    (lit "google.protobuf.FileDescriptorProto",
      [.plain "name" 1 .optional .string,
        .plain "package" 2 .optional .string,
        .plain "dependency" 3 .repeated .string,
        .typed "message_type" 4 .repeated .message "google.protobuf.DescriptorProto",
        .typed "enum_type" 5 .repeated .message "google.protobuf.EnumDescriptorProto",
        .typed "service" 6 .repeated .message "google.protobuf.ServiceDescriptorProto",
        .typed "extension" 7 .repeated .message "google.protobuf.FieldDescriptorProto",
        .typed "options" 8 .optional .message "google.protobuf.FileOptions",
        .typed "source_code_info" 9 .optional .message "google.protobuf.SourceCodeInfo"]),
    (lit "google.protobuf.DescriptorProto",
      [.plain "name" 1 .optional .string,
        .typed "field" 2 .repeated .message "google.protobuf.FieldDescriptorProto",
        .typed "extension" 6 .repeated .message "google.protobuf.FieldDescriptorProto",
        .typed "nested_type" 3 .repeated .message "google.protobuf.DescriptorProto",
        .typed "enum_type" 4 .repeated .message "google.protobuf.EnumDescriptorProto",
        .typed "extension_range" 5 .repeated .message
          "google.protobuf.DescriptorProto.ExtensionRange",
        .typed "options" 7 .optional .message "google.protobuf.MessageOptions"]),
    (lit "google.protobuf.DescriptorProto.ExtensionRange",
      [.plain "start" 1 .optional .int32,
        .plain "end" 2 .optional .int32]),
    (lit "google.protobuf.FieldDescriptorProto",
      [.plain "name" 1 .optional .string,
        .plain "number" 3 .optional .int32,
        .typed "label" 4 .optional .enum "google.protobuf.FieldDescriptorProto.Label",
        .typed "type" 5 .optional .enum "google.protobuf.FieldDescriptorProto.Type",
        .plain "type_name" 6 .optional .string,
        .plain "extendee" 2 .optional .string,
        .plain "default_value" 7 .optional .string,
        .typed "options" 8 .optional .message "google.protobuf.FieldOptions"]),
    (lit "google.protobuf.EnumDescriptorProto",
      [.plain "name" 1 .optional .string,
        .typed "value" 2 .repeated .message "google.protobuf.EnumValueDescriptorProto",
        .typed "options" 3 .optional .message "google.protobuf.EnumOptions"]),
    (lit "google.protobuf.EnumValueDescriptorProto",
      [.plain "name" 1 .optional .string,
        .plain "number" 2 .optional .int32,
        .typed "options" 3 .optional .message "google.protobuf.EnumValueOptions"]),
    (lit "google.protobuf.ServiceDescriptorProto",
      [.plain "name" 1 .optional .string,
        .typed "method" 2 .repeated .message "google.protobuf.MethodDescriptorProto",
        .typed "options" 3 .optional .message "google.protobuf.ServiceOptions"]),
    (lit "google.protobuf.MethodDescriptorProto",
      [.plain "name" 1 .optional .string,
        .plain "input_type" 2 .optional .string,
        .plain "output_type" 3 .optional .string,
        .typed "options" 4 .optional .message "google.protobuf.MethodOptions"]),
    (lit "google.protobuf.FileOptions",
      [.plain "java_package" 1 .optional .string,
        .plain "java_outer_classname" 8 .optional .string,
        .plain "java_multiple_files" 10 .optional .bool,
        .plain "java_generate_equals_and_hash" 20 .optional .bool,
        .described "optimize_for" 9 .optional .enum
          "google.protobuf.FileOptions.OptimizeMode" "SPEED",
        .plain "cc_generic_services" 16 .optional .bool,
        .plain "java_generic_services" 17 .optional .bool,
        .plain "py_generic_services" 18 .optional .bool,
        .typed "uninterpreted_option" 999 .repeated .message
          "google.protobuf.UninterpretedOption"]),
    (lit "google.protobuf.MessageOptions",
      [.plain "message_set_wire_format" 1 .optional .bool,
        .plain "no_standard_descriptor_accessor" 2 .optional .bool,
        .typed "uninterpreted_option" 999 .repeated .message
          "google.protobuf.UninterpretedOption"]),
    (lit "google.protobuf.FieldOptions",
      [.described "ctype" 1 .optional .enum "google.protobuf.FieldOptions.CType" "STRING",
        .plain "packed" 2 .optional .bool,
        .plain "deprecated" 3 .optional .bool,
        .plain "experimental_map_key" 9 .optional .string,
        .typed "uninterpreted_option" 999 .repeated .message
          "google.protobuf.UninterpretedOption"]),
    (lit "google.protobuf.EnumOptions",
      [.typed "uninterpreted_option" 999 .repeated .message "google.protobuf.UninterpretedOption"]),
    (lit "google.protobuf.EnumValueOptions",
      [.typed "uninterpreted_option" 999 .repeated .message "google.protobuf.UninterpretedOption"]),
    (lit "google.protobuf.ServiceOptions",
      [.typed "uninterpreted_option" 999 .repeated .message "google.protobuf.UninterpretedOption"]),
    (lit "google.protobuf.MethodOptions",
      [.typed "uninterpreted_option" 999 .repeated .message "google.protobuf.UninterpretedOption"]),
    (lit "google.protobuf.UninterpretedOption",
      [.typed "name" 2 .repeated .message "google.protobuf.UninterpretedOption.NamePart",
        .plain "identifier_value" 3 .optional .string,
        .plain "positive_int_value" 4 .optional .uint64,
        .plain "negative_int_value" 5 .optional .int64,
        .plain "double_value" 6 .optional .double,
        .plain "string_value" 7 .optional .bytes,
        .plain "aggregate_value" 8 .optional .string]),
    (lit "google.protobuf.UninterpretedOption.NamePart",
      [.plain "name_part" 1 .required .string,
        .plain "is_extension" 2 .required .bool]),
    (lit "google.protobuf.SourceCodeInfo",
      [.typed "location" 1 .repeated .message "google.protobuf.SourceCodeInfo.Location"]),
    (lit "google.protobuf.SourceCodeInfo.Location",
      [.plain "path" 1 .repeated .int32,
        .plain "span" 2 .repeated .int32])]
  enums := [
    (lit "google.protobuf.FieldDescriptorProto.Type",
      [(1, lit "TYPE_DOUBLE"), (2, lit "TYPE_FLOAT"), (3, lit "TYPE_INT64"),
        (4, lit "TYPE_UINT64"), (5, lit "TYPE_INT32"), (6, lit "TYPE_FIXED64"),
        (7, lit "TYPE_FIXED32"), (8, lit "TYPE_BOOL"), (9, lit "TYPE_STRING"),
        (10, lit "TYPE_GROUP"), (11, lit "TYPE_MESSAGE"), (12, lit "TYPE_BYTES"),
        (13, lit "TYPE_UINT32"), (14, lit "TYPE_ENUM"), (15, lit "TYPE_SFIXED32"),
        (16, lit "TYPE_SFIXED64"), (17, lit "TYPE_SINT32"), (18, lit "TYPE_SINT64")]),
    (lit "google.protobuf.FieldDescriptorProto.Label",
      [(1, lit "LABEL_OPTIONAL"), (2, lit "LABEL_REQUIRED"), (3, lit "LABEL_REPEATED")]),
    (lit "google.protobuf.FileOptions.OptimizeMode",
      [(1, lit "SPEED"), (2, lit "CODE_SIZE"), (3, lit "LITE_RUNTIME")]),
    (lit "google.protobuf.FieldOptions.CType",
      [(0, lit "STRING"), (1, lit "CORD"), (2, lit "STRING_PIECE")])]

/-- `pbc_new` -/
def pbcNew : Option Env := registerInternal .empty pbcDescriptor

end Pbc
