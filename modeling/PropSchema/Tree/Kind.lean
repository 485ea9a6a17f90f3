namespace PropSchema

inductive Kind
  -- types
  | annotatedType
  | parenthesizedType
  | readonlyType
  | predefinedType
  | literalType
  | undefined
  | null
  | templateLiteralType
  | typeIdentifier
  | nestedTypeIdentifier
  | identifier
  | genericType
  | objectType
  | arrayType
  | tupleType
  | optionalType
  | restType
  | tupleParameter
  | optionalTupleParameter
  | unionType
  | intersectionType
  | functionType
  -- literals
  | string
  | number
  | unaryExpression
  | true
  | false
  -- members and parameters
  | propertySignature
  | methodSignature
  | callSignature
  | propertyIdentifier
  | enumAssignment
  | requiredParameter
  | optionalParameter
  | restPattern
  | this
  -- declarations
  | interfaceDeclaration
  | typeAliasDeclaration
  | enumDeclaration
  | extendsTypeClause
  | extendsClause
  | ambientDeclaration
  | functionDeclaration
  | generatorFunctionDeclaration
  | functionSignature
  | classDeclaration
  | abstractClassDeclaration
  | lexicalDeclaration
  | variableDeclaration
  | variableDeclarator
  -- modules
  | importStatement
  | importClause
  | namedImports
  | importSpecifier
  | exportStatement
  | exportClause
  | exportSpecifier
  -- expressions
  | functionExpression
  | function
  | arrowFunction
  | generatorFunction
  | callExpression
  | memberExpression
  -- tokens
  | questionMark
  | star
  | default
  | comment
  | other (name : String)
  deriving DecidableEq, Repr

namespace Kind

def name : Kind → String
  | .annotatedType => "type_annotation"
  | .parenthesizedType => "parenthesized_type"
  | .readonlyType => "readonly_type"
  | .predefinedType => "predefined_type"
  | .literalType => "literal_type"
  | .undefined => "undefined"
  | .null => "null"
  | .templateLiteralType => "template_literal_type"
  | .typeIdentifier => "type_identifier"
  | .nestedTypeIdentifier => "nested_type_identifier"
  | .identifier => "identifier"
  | .genericType => "generic_type"
  | .objectType => "object_type"
  | .arrayType => "array_type"
  | .tupleType => "tuple_type"
  | .optionalType => "optional_type"
  | .restType => "rest_type"
  | .tupleParameter => "tuple_parameter"
  | .optionalTupleParameter => "optional_tuple_parameter"
  | .unionType => "union_type"
  | .intersectionType => "intersection_type"
  | .functionType => "function_type"
  | .string => "string"
  | .number => "number"
  | .unaryExpression => "unary_expression"
  | .true => "true"
  | .false => "false"
  | .propertySignature => "property_signature"
  | .methodSignature => "method_signature"
  | .callSignature => "call_signature"
  | .propertyIdentifier => "property_identifier"
  | .enumAssignment => "enum_assignment"
  | .requiredParameter => "required_parameter"
  | .optionalParameter => "optional_parameter"
  | .restPattern => "rest_pattern"
  | .this => "this"
  | .interfaceDeclaration => "interface_declaration"
  | .typeAliasDeclaration => "type_alias_declaration"
  | .enumDeclaration => "enum_declaration"
  | .extendsTypeClause => "extends_type_clause"
  | .extendsClause => "extends_clause"
  | .ambientDeclaration => "ambient_declaration"
  | .functionDeclaration => "function_declaration"
  | .generatorFunctionDeclaration => "generator_function_declaration"
  | .functionSignature => "function_signature"
  | .classDeclaration => "class_declaration"
  | .abstractClassDeclaration => "abstract_class_declaration"
  | .lexicalDeclaration => "lexical_declaration"
  | .variableDeclaration => "variable_declaration"
  | .variableDeclarator => "variable_declarator"
  | .importStatement => "import_statement"
  | .importClause => "import_clause"
  | .namedImports => "named_imports"
  | .importSpecifier => "import_specifier"
  | .exportStatement => "export_statement"
  | .exportClause => "export_clause"
  | .exportSpecifier => "export_specifier"
  | .functionExpression => "function_expression"
  | .function => "function"
  | .arrowFunction => "arrow_function"
  | .generatorFunction => "generator_function"
  | .callExpression => "call_expression"
  | .memberExpression => "member_expression"
  | .questionMark => "?"
  | .star => "*"
  | .default => "default"
  | .comment => "comment"
  | .other name => name

def known : List Kind :=
  [.annotatedType, .parenthesizedType, .readonlyType, .predefinedType, .literalType, .undefined,
    .null, .templateLiteralType, .typeIdentifier, .nestedTypeIdentifier, .identifier, .genericType,
    .objectType, .arrayType, .tupleType, .optionalType, .restType, .tupleParameter,
    .optionalTupleParameter, .unionType, .intersectionType, .functionType, .string, .number,
    .unaryExpression, .true, .false, .propertySignature, .methodSignature, .callSignature,
    .propertyIdentifier, .enumAssignment, .requiredParameter, .optionalParameter, .restPattern,
    .this, .interfaceDeclaration, .typeAliasDeclaration, .enumDeclaration, .extendsTypeClause,
    .extendsClause, .ambientDeclaration, .functionDeclaration, .generatorFunctionDeclaration,
    .functionSignature, .classDeclaration, .abstractClassDeclaration, .lexicalDeclaration,
    .variableDeclaration, .variableDeclarator, .importStatement, .importClause, .namedImports,
    .importSpecifier, .exportStatement, .exportClause, .exportSpecifier, .functionExpression,
    .function, .arrowFunction, .generatorFunction, .callExpression, .memberExpression,
    .questionMark, .star, .default, .comment]

def ofName (name : String) : Kind := (known.find? (·.name == name)).getD (.other name)

theorem name_ofName (name : String) : (ofName name).name = name := by
  unfold ofName
  cases h : known.find? (·.name == name) with
  | none => rfl
  | some k => simpa using List.find?_some h

end Kind

inductive Field
  | name
  | type
  | value
  | body
  | parameters
  | pattern
  | returnType
  | typeParameters
  | typeArguments
  | declaration
  | source
  | otherName
  | function
  | arguments
  | property
  deriving DecidableEq, Repr

def Field.ofName? : String → Option Field
  | "name" => some .name
  | "type" => some .type
  | "value" => some .value
  | "body" => some .body
  | "parameters" => some .parameters
  | "pattern" => some .pattern
  | "return_type" => some .returnType
  | "type_parameters" => some .typeParameters
  | "type_arguments" => some .typeArguments
  | "declaration" => some .declaration
  | "source" => some .source
  | "alias" => some .otherName
  | "function" => some .function
  | "arguments" => some .arguments
  | "property" => some .property
  | _ => none

end PropSchema
